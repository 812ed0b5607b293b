import Mathlib.Data.List.Forall2
import PolyProjection.Fault

/-! Reasoning about checked computations: what is known of the parts of one that was carried out, and what loops
keep. A loop over a list is followed by a statement about the items done so far. -/

namespace PolyProjection

variable {α β ι : Type}

@[simp] theorem ok_bind (a : α) (f : α → Checked β) : ((.ok a : Checked α) >>= f) = f a := rfl

@[simp] theorem pure_bind_ok (a : α) (f : α → Checked β) : ((pure a : Checked α) >>= f) = f a := rfl

@[simp] theorem error_bind (e : Fault) (f : α → Checked β) : ((.error e : Checked α) >>= f) = .error e := rfl

@[simp] theorem pure_eq_ok_iff {a b : α} : (pure a : Checked α) = .ok b ↔ a = b := by
  constructor
  · intro h
    exact Except.ok.inj h
  · rintro rfl
    rfl

/-- The computation is carried out and its result passes the test `f`. -/
def passes (x : Checked β) (f : β → Bool) : Bool :=
  match x with
  | .ok b => f b
  | .error _ => false

theorem exists_of_passes {x : Checked β} {f : β → Bool} (h : passes x f = true) : ∃ b, x = .ok b ∧ f b = true := by
  cases x with
  | error e => cases h
  | ok b => exact ⟨b, rfl, h⟩

/-- A computation whose result must not be a rejection. -/
def accepted {ε : Type} (x : Checked (Except ε α)) : Checked α :=
  match x with
  | .ok (.ok a) => .ok a
  | .ok (.error _) => .error .wrongState
  | .error fault => .error fault

theorem accepted_eq_ok_iff {ε : Type} {x : Checked (Except ε α)} {a : α} :
    accepted x = .ok a ↔ x = .ok (.ok a) := by
  unfold accepted
  split <;> simp

/-- A loop keeps what every round keeps. -/
theorem foldlM_keeps {f : β → ι → Checked β} (P : β → Prop) {xs : List ι} {b b' : β}
    (h : xs.foldlM f b = .ok b') (hb : P b) (step : ∀ x ∈ xs, ∀ c c', P c → f c x = .ok c' → P c') : P b' := by
  induction xs generalizing b with
  | nil =>
      rw [List.foldlM_nil, pure_eq_ok_iff] at h
      rwa [← h]
  | cons x xs ih =>
      rw [List.foldlM_cons, bind_eq_ok_iff] at h
      obtain ⟨c, hc, h⟩ := h
      exact ih h (step x List.mem_cons_self b c hb hc) fun y hy => step y (List.mem_cons_of_mem x hy)

/-- A loop that was carried out establishes a statement about the items done. -/
theorem foldlM_reaches {f : β → ι → Checked β} (P : List ι → β → Prop) {xs : List ι} {b b' : β}
    (h : xs.foldlM f b = .ok b') (hb : P [] b)
    (step : ∀ done x rest c c', xs = done ++ x :: rest → P done c → f c x = .ok c' → P (done ++ [x]) c') :
    P xs b' := by
  suffices H : ∀ rest done c, xs = done ++ rest → P done c → rest.foldlM f c = .ok b' → P xs b' from
    H xs [] b rfl hb h
  intro rest
  induction rest with
  | nil =>
      intro done c hxs hc h
      rw [List.foldlM_nil, pure_eq_ok_iff] at h
      rw [List.append_nil] at hxs
      rwa [hxs, ← h]
  | cons x rest ih =>
      intro done c hxs hc h
      rw [List.foldlM_cons, bind_eq_ok_iff] at h
      obtain ⟨c', hc', h⟩ := h
      exact ih (done ++ [x]) c' (by rw [hxs, List.append_assoc, List.singleton_append])
        (step done x rest c c' hxs hc hc') h

/-- Every round of a loop that was carried out was so. -/
theorem step_of_foldlM {f : β → ι → Checked β} {xs : List ι} {b b' : β} (h : xs.foldlM f b = .ok b') :
    ∀ x ∈ xs, ∃ c c', f c x = .ok c' := by
  induction xs generalizing b with
  | nil => simp
  | cons x xs ih =>
      rw [List.foldlM_cons, bind_eq_ok_iff] at h
      obtain ⟨c, hc, h⟩ := h
      rintro y (_ | ⟨_, hy⟩)
      · exact ⟨b, c, hc⟩
      · exact ih h y hy

/-- A loop each of whose rounds can be carried out is carried out. -/
theorem foldlM_succeeds {f : β → ι → Checked β} (P : List ι → β → Prop) {l : List ι} {b : β} (hb : P [] b)
    (step : ∀ done x rest c, l = done ++ x :: rest → P done c → ∃ c', f c x = .ok c' ∧ P (done ++ [x]) c') :
    ∃ b', l.foldlM f b = .ok b' ∧ P l b' := by
  suffices H : ∀ rest done c, l = done ++ rest → P done c → ∃ b', rest.foldlM f c = .ok b' ∧ P l b' from
    H l [] b rfl hb
  intro rest
  induction rest with
  | nil =>
      intro done c hl hc
      rw [List.append_nil] at hl
      exact ⟨c, by rw [List.foldlM_nil]; rfl, by rwa [hl]⟩
  | cons x rest ih =>
      intro done c hl hc
      obtain ⟨c', hc', hP⟩ := step done x rest c hl hc
      obtain ⟨b', hb', hP'⟩ := ih (done ++ [x]) c' (by rw [hl, List.append_assoc, List.singleton_append]) hP
      exact ⟨b', by rw [List.foldlM_cons, hc', ok_bind, hb'], hP'⟩

/-- A computation item by item answers with as many results, each that of its item. -/
theorem mapM_eq_ok_iff {f : ι → Checked β} {xs : List ι} {ys : List β} :
    xs.mapM f = .ok ys ↔ List.Forall₂ (fun x y => f x = .ok y) xs ys := by
  induction xs generalizing ys with
  | nil =>
      rw [List.mapM_nil, pure_eq_ok_iff, List.forall₂_nil_left_iff]
      exact eq_comm
  | cons x xs ih =>
      rw [List.mapM_cons, bind_eq_ok_iff, List.forall₂_cons_left_iff]
      simp only [bind_eq_ok_iff, pure_eq_ok_iff, ih]
      constructor
      · rintro ⟨y, hy, zs, hzs, rfl⟩
        exact ⟨y, zs, hy, hzs, rfl⟩
      · rintro ⟨y, zs, hy, hzs, rfl⟩
        exact ⟨y, hy, zs, hzs, rfl⟩

theorem mapM_of_forall {f : ι → Checked β} {g : ι → β} {xs : List ι} (h : ∀ x ∈ xs, f x = .ok (g x)) :
    xs.mapM f = .ok (xs.map g) := by
  rw [mapM_eq_ok_iff, List.forall₂_map_right_iff, List.forall₂_same]
  exact h

theorem filterAuxM_of_forall {f : ι → Checked Bool} {p : ι → Bool} {xs : List ι} (acc : List ι)
    (h : ∀ x ∈ xs, f x = .ok (p x)) : xs.filterAuxM f acc = .ok ((xs.filter p).reverse ++ acc) := by
  induction xs generalizing acc with
  | nil => rfl
  | cons x xs ih =>
      rw [List.filterAuxM, h x List.mem_cons_self, ok_bind, ih _ fun y hy => h y (List.mem_cons_of_mem x hy),
        List.filter_cons]
      cases p x with
      | false => rfl
      | true => rw [if_pos rfl, List.reverse_cons, List.append_assoc]; rfl

theorem filterM_of_forall {f : ι → Checked Bool} {p : ι → Bool} {xs : List ι} (h : ∀ x ∈ xs, f x = .ok (p x)) :
    xs.filterM f = .ok (xs.filter p) := by
  rw [List.filterM, filterAuxM_of_forall [] h, ok_bind, List.append_nil, List.reverse_reverse]
  rfl

theorem filterAuxM_eq_ok {f : ι → Checked Bool} {xs acc ys : List ι} (h : xs.filterAuxM f acc = .ok ys) :
    ∃ p : ι → Bool, (∀ x ∈ xs, f x = .ok (p x)) ∧ ys = (xs.filter p).reverse ++ acc := by
  have hall : ∀ x ∈ xs, ∃ b, f x = .ok b := by
    induction xs generalizing acc with
    | nil => simp
    | cons x xs ih =>
        rw [List.filterAuxM, bind_eq_ok_iff] at h
        obtain ⟨b, hb, h⟩ := h
        intro y hy
        rcases List.mem_cons.1 hy with rfl | hy
        · exact ⟨b, hb⟩
        · exact ih h y hy
  have hp : ∀ x ∈ xs, f x = .ok (match f x with | .ok b => b | .error _ => false) := fun x hx => by
    obtain ⟨b, hb⟩ := hall x hx
    rw [hb]
  refine ⟨_, hp, ?_⟩
  rw [filterAuxM_of_forall acc hp, Except.ok.injEq] at h
  exact h.symm

/-- An item that was left out was answered with no. -/
theorem filterM_eq_ok_nil {f : ι → Checked Bool} {xs : List ι} (h : xs.filterM f = .ok []) :
    ∀ x ∈ xs, f x = .ok false := by
  rw [List.filterM, bind_eq_ok_iff] at h
  obtain ⟨ys, hys, h⟩ := h
  obtain ⟨p, hp, rfl⟩ := filterAuxM_eq_ok hys
  rw [pure_eq_ok_iff, List.append_nil, List.reverse_reverse, List.filter_eq_nil_iff] at h
  intro x hx
  rw [hp x hx, eq_false_of_ne_true (h x hx)]

theorem allM_of_forall {f : ι → Checked Bool} {p : ι → Bool} {xs : List ι} (h : ∀ x ∈ xs, f x = .ok (p x)) :
    xs.allM f = .ok (xs.all p) := by
  induction xs with
  | nil => rfl
  | cons x xs ih =>
      rw [List.allM, h x List.mem_cons_self, ok_bind, List.all_cons]
      cases p x with
      | false => rfl
      | true => exact ih fun y hy => h y (List.mem_cons_of_mem x hy)

/-- An answer of yes was given for every item. -/
theorem allM_eq_ok_true {f : ι → Checked Bool} {xs : List ι} (h : xs.allM f = .ok true) :
    ∀ x ∈ xs, f x = .ok true := by
  induction xs with
  | nil => simp
  | cons x xs ih =>
      rw [List.allM, bind_eq_ok_iff] at h
      obtain ⟨b, hb, h⟩ := h
      cases b with
      | false => cases h
      | true =>
          intro y hy
          rcases List.mem_cons.1 hy with rfl | hy
          · exact hb
          · exact ih h y hy

theorem mapIdxM_go_of_forall {f : Nat → α → Checked β} {g : Nat → α → β} (l : List α) (acc : Array β)
    (h : ∀ i (hi : i < l.length), f (acc.size + i) l[i] = .ok (g (acc.size + i) l[i])) :
    List.mapIdxM.go f l acc = .ok (acc.toList ++ l.mapIdx fun i => g (acc.size + i)) := by
  induction l generalizing acc with
  | nil =>
      rw [List.mapIdx_nil, List.append_nil]
      rfl
  | cons x l ih =>
      have hx : f acc.size x = .ok (g acc.size x) := h 0 (by simp)
      have hsize : (acc.push (g acc.size x)).size = acc.size + 1 := Array.size_push _
      rw [List.mapIdxM.go, hx, ok_bind, ih (acc.push (g acc.size x)) fun i hi => by
        have hi' := h (i + 1) (by simpa using hi)
        rw [hsize, Nat.add_assoc, Nat.add_comm 1 i]
        exact hi']
      rw [List.mapIdx_cons, Array.toList_push, List.append_assoc, hsize]
      simp only [List.singleton_append, Nat.add_zero, Nat.add_assoc, Nat.add_comm 1]

/-- A computation at each index of an array is carried out if each of its parts is. -/
theorem mapIdxM_of_forall {f : Nat → α → Checked β} {g : Nat → α → β} {xs : Array α}
    (h : ∀ i (hi : i < xs.size), f i xs[i] = .ok (g i xs[i])) : xs.mapIdxM f = .ok (xs.mapIdx g) := by
  obtain ⟨l⟩ := xs
  have hgo := mapIdxM_go_of_forall (f := f) (g := g) l #[] (by simpa using h)
  simp only [List.size_toArray, List.length_nil, Nat.zero_add, List.nil_append] at hgo
  rw [List.mapIdxM_toArray, List.mapIdxM, hgo, List.mapIdx_toArray]
  rfl
theorem nodup_span (lo hi : Nat) : (span lo hi).Nodup :=
  List.nodup_range' 1

theorem require_of_true {p : Bool} {fault : Fault} (h : p = true) : require p fault = .ok () :=
  require_eq_ok_iff.2 h

theorem require_eq_ok {p : Bool} {fault : Fault} {u : Unit} : require p fault = .ok u ↔ p = true :=
  require_eq_ok_iff

theorem store_eq_ok_iff {xs ys : Array α} {i : Nat} {x : α} :
    store xs i x = .ok ys ↔ i < xs.size ∧ ys = xs.setIfInBounds i x := by
  unfold store
  split
  · rename_i h
    rw [Array.setIfInBounds, dif_pos h, Except.ok.injEq]
    exact ⟨fun hy => ⟨h, hy.symm⟩, fun hy => hy.2.symm⟩
  · rename_i h
    exact ⟨fun hy => (nomatch hy), fun hy => absurd hy.1 h⟩

theorem store_of_lt' {xs : Array α} {i : Nat} (x : α) (h : i < xs.size) :
    store xs i x = .ok (xs.setIfInBounds i x) :=
  store_eq_ok_iff.2 ⟨h, rfl⟩

theorem follow_lt {xs : Array α} {i : Nat} {x : α} (h : fetch xs i = .ok x) : i < xs.size := by
  rw [fetch_eq_ok_iff] at h
  exact (Array.getElem?_eq_some_iff.1 h).1

end PolyProjection
