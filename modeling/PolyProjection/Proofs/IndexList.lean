import Mathlib.Data.List.Chain
import Mathlib.Data.List.Infix
import Mathlib.Data.List.Nodup
import Mathlib.Data.List.Perm.Subperm
import PolyProjection.IndexList
import PolyProjection.Proofs.Checked

/-! The linked lists of indices hold lists. The links lead from the end marker through the entries and back to
it, and every operation is the one on the list of entries. -/

namespace PolyProjection.IndexList

/-- `i` is followed by `j`, and the links agree on it. -/
def Linked (l : IndexList) (i j : Nat) : Prop :=
  l.next[i]? = some (some j) ∧ l.prev[j]? = some (some i)

/-- The linked list over the indices below `n` holds the entries `xs`. -/
structure Holds (l : IndexList) (n : Nat) (xs : List Nat) : Prop where
  size_next : l.next.size = n + 1
  size_prev : l.prev.size = n + 1
  size_eq : l.size = xs.length
  nodup : xs.Nodup
  lt : ∀ i ∈ xs, i < n
  chain : (n :: (xs ++ [n])).IsChain l.Linked
  unlinked : ∀ i < n, i ∉ xs → l.next[i]? = some none ∧ l.prev[i]? = some none

variable {l : IndexList} {n : Nat} {xs ys zs : List Nat} {i : Nat}

theorem holds_empty (n : Nat) : (empty n).Holds n [] := by
  have hlinks : ∀ i, ((Array.replicate n (none : Option Nat)).push (some n))[i]? =
      if i = n then some (some n) else if i < n then some none else none := by
    intro i
    rw [Array.getElem?_push, Array.getElem?_replicate, Array.size_replicate]
  constructor
  · simp [empty]
  · simp [empty]
  · rfl
  · exact List.nodup_nil
  · simp
  · have hn := hlinks n
    rw [if_pos rfl] at hn
    rw [List.nil_append, List.isChain_cons_cons]
    exact ⟨⟨hn, hn⟩, List.isChain_singleton n⟩
  · intro i hi _
    simp [empty, hlinks, hi, Nat.ne_of_lt hi]

theorem Holds.marker_eq (h : l.Holds n xs) : l.marker = n := by
  rw [marker, h.size_next, Nat.add_sub_cancel]

/-- The end marker and the entries before a place lead to the entry or the marker after it. -/
theorem Holds.linked_of_append (h : l.Holds n (ys ++ zs)) :
    l.Linked ((n :: ys).getLast (List.cons_ne_nil _ _)) ((zs ++ [n]).head (by simp)) := by
  have hchain := h.chain
  rw [List.append_assoc, ← List.cons_append, List.isChain_append] at hchain
  refine hchain.2.2 _ (List.getLast?_eq_getLast_of_ne_nil _ ▸ rfl) _ ?_
  rw [Option.mem_def, List.head?_eq_some_head]

theorem Holds.linked_next (h : l.Holds n (ys ++ i :: zs)) : l.Linked i ((zs ++ [n]).head (by simp)) := by
  have happ : ys ++ i :: zs = (ys ++ [i]) ++ zs := by simp
  have hlinked := (happ ▸ h).linked_of_append
  have hlast : (n :: (ys ++ [i])).getLast (List.cons_ne_nil _ _) = i := by simp
  rwa [hlast] at hlinked

theorem Holds.linked_prev (h : l.Holds n (ys ++ i :: zs)) :
    l.Linked ((n :: ys).getLast (List.cons_ne_nil _ _)) i := by
  have hlinked := h.linked_of_append
  simpa using hlinked

theorem Holds.next_marker (h : l.Holds n xs) : l.Linked n ((xs ++ [n]).head (by simp)) := by
  have happ : l.Holds n ([] ++ xs) := h
  simpa using happ.linked_of_append

theorem Holds.prev_marker (h : l.Holds n xs) : l.Linked ((n :: xs).getLast (List.cons_ne_nil _ _)) n := by
  have happ : l.Holds n (xs ++ []) := by rwa [List.append_nil]
  simpa using happ.linked_of_append

/-- Below the marker the linked indices are the entries. -/
theorem Holds.contains_eq (h : l.Holds n xs) (hi : i < n) : l.contains i = .ok (decide (i ∈ xs)) := by
  by_cases hmem : i ∈ xs
  · obtain ⟨ys, zs, rfl⟩ := List.append_of_mem hmem
    rw [contains, fetch_eq_ok_iff.2 h.linked_next.1, ok_bind, decide_eq_true hmem]
    rfl
  · rw [contains, fetch_eq_ok_iff.2 (h.unlinked i hi hmem).1, ok_bind, decide_eq_false hmem]
    rfl

theorem unlessMarker_head (h : l.Holds n xs) (hzs : ∀ i ∈ zs, i < n) :
    l.unlessMarker ((zs ++ [n]).head (by simp)) = zs.head? := by
  cases zs with
  | nil => simp [unlessMarker, h.marker_eq]
  | cons z zs =>
      have hz := hzs z List.mem_cons_self
      simp only [List.cons_append, List.head_cons, List.head?_cons]
      rw [unlessMarker, h.marker_eq, if_neg (by omega)]

theorem unlessMarker_getLast (h : l.Holds n xs) (hys : ∀ i ∈ ys, i < n) :
    l.unlessMarker ((n :: ys).getLast (List.cons_ne_nil _ _)) = ys.getLast? := by
  rcases List.eq_nil_or_concat ys with rfl | ⟨ws, w, rfl⟩
  · simp [unlessMarker, h.marker_eq]
  · have hw := hys w (by simp)
    have hlast : (n :: ws.concat w).getLast (List.cons_ne_nil _ _) = w := by simp
    rw [hlast, unlessMarker, h.marker_eq, if_neg (by omega), List.concat_eq_append, List.getLast?_concat]

theorem follow_ok {links : Array (Option Nat)} {k : Nat} (h : links[i]? = some (some k)) :
    follow links i = .ok k := by
  rw [follow, fetch_eq_ok_iff.2 h, ok_bind]
  rfl

theorem Holds.after_eq (h : l.Holds n (ys ++ i :: zs)) : l.after i = .ok zs.head? := by
  rw [after, follow_ok h.linked_next.1, ok_bind,
    unlessMarker_head h fun j hj => h.lt j (by simp [hj])]
  rfl

theorem Holds.before_eq (h : l.Holds n (ys ++ i :: zs)) : l.before i = .ok ys.getLast? := by
  rw [before, follow_ok h.linked_prev.2, ok_bind,
    unlessMarker_getLast h fun j hj => h.lt j (by simp [hj])]
  rfl

theorem Holds.first_eq (h : l.Holds n xs) : l.first = .ok xs.head? := by
  rw [first, after, h.marker_eq, follow_ok h.next_marker.1, ok_bind, unlessMarker_head h h.lt]
  rfl

theorem Holds.last_eq (h : l.Holds n xs) : l.last = .ok xs.getLast? := by
  rw [last, before, h.marker_eq, follow_ok h.prev_marker.2, ok_bind, unlessMarker_getLast h h.lt]
  rfl

theorem Holds.walk_eq (h : l.Holds n (ys ++ zs)) {count : Nat} (hcount : zs.length ≤ count) :
    l.walk count zs.head? = .ok zs := by
  induction zs generalizing ys count with
  | nil => cases count <;> rfl
  | cons z zs ih =>
      cases count with
      | zero => simp at hcount
      | succ count =>
          rw [List.length_cons] at hcount
          have happ : ys ++ z :: zs = (ys ++ [z]) ++ zs := by simp
          rw [List.head?_cons, walk, h.after_eq, ok_bind, ih (happ ▸ h) (by omega), ok_bind]
          rfl

theorem Holds.length_le (h : l.Holds n xs) : xs.length ≤ n := by
  have hrange : xs ⊆ List.range n := fun i hi => List.mem_range.2 (h.lt i hi)
  have hle := (h.nodup.subperm hrange).length_le
  rwa [List.length_range] at hle

/-- The entries from one of them on. -/
theorem Holds.listFrom_eq (h : l.Holds n (ys ++ zs)) : l.listFrom zs.head? = .ok zs := by
  have hlen := h.length_le
  rw [List.length_append] at hlen
  rw [listFrom, h.size_next]
  exact h.walk_eq (by omega)

theorem Holds.toList_eq (h : l.Holds n xs) : l.toList = .ok xs := by
  rw [toList, h.first_eq, ok_bind]
  have happ : l.Holds n ([] ++ xs) := h
  exact happ.listFrom_eq

/-- A linked list holds one list of entries. -/
theorem Holds.unique (h : l.Holds n xs) (h' : l.Holds n ys) : xs = ys :=
  Except.ok.inj (h.toList_eq.symm.trans h'.toList_eq)

/-- The entries from `i` back to the first one, of which there may be `count` at most. -/
def walkBack (l : IndexList) : Nat → Option Nat → Checked (List Nat)
  | _, none => return []
  | 0, some _ => .error .wrongState
  | count + 1, some i => return i :: (← l.walkBack count (← l.before i))

/-- The entries from the last one back to the first. -/
def backwards (l : IndexList) : Checked (List Nat) := do
  l.walkBack (l.next.size + 1) (← l.last)

theorem Holds.walkBack_eq (h : l.Holds n (ys ++ zs)) {count : Nat} (hcount : ys.length ≤ count) :
    l.walkBack count ys.getLast? = .ok ys.reverse := by
  induction ys using List.reverseRecOn generalizing zs count with
  | nil => cases count <;> rfl
  | append_singleton ys y ih =>
      cases count with
      | zero => simp at hcount
      | succ count =>
          rw [List.length_append, List.length_singleton] at hcount
          rw [List.append_assoc, List.singleton_append] at h
          rw [List.getLast?_concat, walkBack, h.before_eq, ok_bind, ih h (by omega), ok_bind, List.reverse_concat]
          rfl

theorem Holds.backwards_eq (h : l.Holds n xs) : l.backwards = .ok xs.reverse := by
  have happ : l.Holds n (xs ++ []) := by rwa [List.append_nil]
  have hlen := h.length_le
  rw [backwards, h.last_eq, ok_bind, h.size_next]
  exact happ.walkBack_eq (by omega)

theorem isChain_of_ends {R S : Nat → Nat → Prop} {ws : List Nat} (hws : ws.IsChain R)
    (h : ∀ a b, a ∈ ws.dropLast → b ∈ ws.tail → R a b → S a b) : ws.IsChain S := by
  induction ws with
  | nil => exact List.isChain_nil
  | cons w ws ih =>
      cases ws with
      | nil => exact List.isChain_singleton _
      | cons v ws =>
          rw [List.isChain_cons_cons] at hws ⊢
          refine ⟨h w v (by simp) (by simp) hws.1, ih hws.2 fun a b ha hb hab => h a b ?_ ?_ hab⟩
          · rw [List.dropLast_cons_cons]
            exact List.mem_cons_of_mem w ha
          · rw [List.tail_cons]
            exact List.mem_of_mem_tail hb

section Relink

variable {ms : List Nat} {p q : Nat} (h : l.Holds n (ys ++ (ms ++ zs)))
  (hp : p = (n :: ys).getLast (List.cons_ne_nil _ _)) (hq : q = (zs ++ [n]).head (by simp))

include h in
theorem nodup_ends : (n :: ys).Nodup ∧ (zs ++ [n]).Nodup ∧ (∀ i ∈ ys, i ∉ zs) := by
  have hnd := List.nodup_append.1 h.nodup
  have hzs := (List.nodup_append.1 hnd.2.1).2.1
  have hn : ∀ i, i ∈ ys ∨ i ∈ zs → i ≠ n := fun i hi => Nat.ne_of_lt (h.lt i (by simp; tauto))
  refine ⟨List.nodup_cons.2 ⟨fun hy => hn n (Or.inl hy) rfl, hnd.1⟩, ?_, fun i hy hz =>
    hnd.2.2 i hy i (List.mem_append_right ms hz) rfl⟩
  rw [List.nodup_append]
  refine ⟨hzs, List.nodup_singleton n, fun a ha b hb hab => hn a (Or.inr ha) ?_⟩
  rw [hab, List.mem_singleton.1 hb]

include h hp hq in
/-- Links that differ only behind the place where a list is changed still join the entries before it and those
after it. -/
theorem isChain_ends {g : IndexList} (hsame : ∀ a b, a ≠ p → b ≠ q → a ∉ ms → b ∉ ms → l.Linked a b →
    g.Linked a b) : (n :: ys).IsChain g.Linked ∧ (zs ++ [n]).IsChain g.Linked := by
  obtain ⟨hys, hzs, hdis⟩ := nodup_ends h
  have hms : ∀ i ∈ ms, i < n ∧ i ∉ ys ∧ i ∉ zs := by
    intro i hi
    have hnd := List.nodup_append.1 h.nodup
    refine ⟨h.lt i (by simp [hi]), fun hy => hnd.2.2 i hy i (List.mem_append_left zs hi) rfl, fun hz =>
      (List.nodup_append.1 hnd.2.1).2.2 i hi i hz rfl⟩
  have hchain := h.chain
  rw [show n :: (ys ++ (ms ++ zs) ++ [n]) = (n :: ys) ++ (ms ++ (zs ++ [n])) by simp, List.isChain_append] at hchain
  obtain ⟨hleft, hright, -⟩ := hchain
  constructor
  · refine isChain_of_ends hleft fun a b ha hb hab => ?_
    have hane : a ≠ p := by
      rintro rfl
      have hsplit := List.dropLast_append_getLast (List.cons_ne_nil n ys)
      rw [← hsplit, List.nodup_append] at hys
      exact hys.2.2 _ ha _ (List.mem_singleton.2 hp) rfl
    rw [List.tail_cons] at hb
    have hbne : b ≠ q := by
      rintro rfl
      have hqmem : b ∈ zs ++ [n] := hq ▸ List.head_mem _
      rcases List.mem_append.1 hqmem with hz | hn
      · exact hdis b hb hz
      · exact (List.nodup_cons.1 hys).1 (List.mem_singleton.1 hn ▸ hb)
    have ha' : a ∈ n :: ys := List.mem_of_mem_dropLast ha
    refine hsame a b hane hbne (fun hm => ?_) (fun hm => (hms b hm).2.1 hb) hab
    rcases List.mem_cons.1 ha' with rfl | hy
    · exact absurd (hms a hm).1 (lt_irrefl a)
    · exact (hms a hm).2.1 hy
  · refine isChain_of_ends (List.IsChain.right_of_append hright) fun a b ha hb hab => ?_
    rw [List.dropLast_concat] at ha
    have hane : a ≠ p := by
      rintro rfl
      have hpmem : a ∈ n :: ys := hp ▸ List.getLast_mem _
      rcases List.mem_cons.1 hpmem with rfl | hy
      · exact (List.nodup_append.1 hzs).2.2 a ha a (by simp) rfl
      · exact hdis a hy ha
    have hbne : b ≠ q := by
      rintro rfl
      have hne : zs ++ [n] ≠ [] := by simp
      rw [← List.cons_head_tail hne, List.nodup_cons] at hzs
      exact hzs.1 (hq ▸ hb)
    have hb' : b ∈ zs ++ [n] := List.mem_of_mem_tail hb
    refine hsame a b hane hbne (fun hm => (hms a hm).2.2 ha) (fun hm => ?_) hab
    rcases List.mem_append.1 hb' with hz | hn
    · exact (hms b hm).2.2 hz
    · exact absurd (hms b hm).1 (by rw [List.mem_singleton.1 hn]; exact lt_irrefl n)

include h hp in
theorem getLast_le : p ≤ n := by
  have hmem : p ∈ n :: ys := hp ▸ List.getLast_mem _
  rcases List.mem_cons.1 hmem with rfl | hy
  · exact le_rfl
  · exact (h.lt p (by simp [hy])).le

include h hq in
theorem head_le : q ≤ n := by
  have hmem : q ∈ zs ++ [n] := hq ▸ List.head_mem _
  rcases List.mem_append.1 hmem with hz | hn
  · exact (h.lt q (by simp [hz])).le
  · rw [List.mem_singleton.1 hn]

include h hp hq in
theorem ne_ends_of_not_mem {j : Nat} (hj : j < n) (hys : j ∉ ys) (hzs : j ∉ zs) : j ≠ p ∧ j ≠ q := by
  constructor
  · rintro rfl
    have hmem : j ∈ n :: ys := hp ▸ List.getLast_mem _
    rcases List.mem_cons.1 hmem with rfl | hy
    · exact lt_irrefl j hj
    · exact hys hy
  · rintro rfl
    have hmem : j ∈ zs ++ [n] := hq ▸ List.head_mem _
    rcases List.mem_append.1 hmem with hz | hn
    · exact hzs hz
    · exact Nat.ne_of_lt hj (List.mem_singleton.1 hn)

include h hp hq in
/-- The entries `ms` between two places are replaced. It is enough that the links join the new entries, that they are as
before elsewhere, and that entries which are gone have none. -/
theorem Holds.splice {ms' : List Nat} {g : IndexList} (hnext : g.next.size = n + 1) (hprev : g.prev.size = n + 1)
    (hsize : g.size = (ys ++ (ms' ++ zs)).length) (hnodup : (ys ++ (ms' ++ zs)).Nodup) (hlt : ∀ i ∈ ms', i < n)
    (hkeep : ∀ a, a ∉ ms → a ∉ ms' → (a ≠ p → g.next[a]? = l.next[a]?) ∧ (a ≠ q → g.prev[a]? = l.prev[a]?))
    (hjoined : (p :: (ms' ++ [q])).IsChain g.Linked)
    (hgone : ∀ i ∈ ms, i ∉ ms' → g.next[i]? = some none ∧ g.prev[i]? = some none) :
    g.Holds n (ys ++ (ms' ++ zs)) := by
  -- a new entry had no links before
  have hfresh : ∀ i ∈ ms', i ∉ ms → l.next[i]? = some none ∧ l.prev[i]? = some none := by
    intro i hi hms
    have hnd := List.nodup_append.1 hnodup
    refine h.unlinked i (hlt i hi) fun hmem => ?_
    rcases List.mem_append.1 hmem with hy | hrest
    · exact hnd.2.2 i hy i (List.mem_append_left zs hi) rfl
    · exact (List.nodup_append.1 hnd.2.1).2.2 i hi i ((List.mem_append.1 hrest).resolve_left hms) rfl
  obtain ⟨hleft, hright⟩ := isChain_ends h hp hq (g := g) (by
    rintro a b hap hbq ha hb ⟨hab, hba⟩
    have ha' : a ∉ ms' := fun hmem => by
      rw [(hfresh a hmem ha).1] at hab
      cases hab
    have hb' : b ∉ ms' := fun hmem => by
      rw [(hfresh b hmem hb).2] at hba
      cases hba
    exact ⟨((hkeep a ha ha').1 hap).trans hab, ((hkeep b hb hb').2 hbq).trans hba⟩)
  refine ⟨hnext, hprev, hsize, hnodup, fun j hj => ?_, ?_, fun j hj hmem => ?_⟩
  · simp only [List.mem_append] at hj
    rcases hj with hj | hj | hj
    · exact h.lt j (by simp [hj])
    · exact hlt j hj
    · exact h.lt j (by simp [hj])
  · have hys : (n :: ys).dropLast ++ [p] = n :: ys := by rw [hp, List.dropLast_append_getLast]
    have hzs : [q] ++ (zs ++ [n]).tail = zs ++ [n] := by rw [hq, List.singleton_append, List.cons_head_tail]
    have hall : n :: (ys ++ (ms' ++ zs) ++ [n]) =
        (n :: ys).dropLast ++ [p] ++ ms' ++ [q] ++ (zs ++ [n]).tail := by
      rw [hys, List.append_assoc _ [q], hzs]
      simp
    rw [hall]
    refine List.IsChain.append_overlap ?_ (by rwa [hzs]) (List.cons_ne_nil q [])
    rw [List.append_assoc]
    exact List.IsChain.append_overlap (by rwa [hys]) hjoined (List.cons_ne_nil p [])
  · simp only [List.mem_append, not_or] at hmem
    by_cases hms : j ∈ ms
    · exact hgone j hms hmem.2.1
    · obtain ⟨hjp, hjq⟩ := ne_ends_of_not_mem h hp hq hj hmem.1 hmem.2.2
      have hold := h.unlinked j hj (by simp only [List.mem_append, not_or]; exact ⟨hmem.1, hms, hmem.2.2⟩)
      have hkept := hkeep j hms hmem.2.1
      exact ⟨(hkept.1 hjp).trans hold.1, (hkept.2 hjq).trans hold.2⟩

end Relink

theorem getElem?_set_set {links : Array (Option Nat)} {j k : Nat} (u v : Option Nat) (hj : j < links.size)
    (hk : k < links.size) (a : Nat) : ((links.setIfInBounds j u).setIfInBounds k v)[a]? =
      if a = k then some v else if a = j then some u else links[a]? := by
  rw [Array.getElem?_setIfInBounds, Array.getElem?_setIfInBounds, Array.size_setIfInBounds, if_pos hj, if_pos hk]
  simp only [eq_comm]

/-- An index is linked after the last of the entries `ys`, or in front. -/
theorem Holds.insertAfter_ok (h : l.Holds n (ys ++ zs)) (hi : i < n) (hmem : i ∉ ys ++ zs) :
    ∃ l', l.insertAfter ys.getLast? i = .ok l' ∧ l'.Holds n (ys ++ i :: zs) := by
  have h' : l.Holds n (ys ++ ([] ++ zs)) := h
  obtain ⟨p, hp⟩ : ∃ p, p = (n :: ys).getLast (List.cons_ne_nil _ _) := ⟨_, rfl⟩
  obtain ⟨q, hq⟩ : ∃ q, q = (zs ++ [n]).head (by simp) := ⟨_, rfl⟩
  have hpos : ys.getLast?.getD l.marker = p := by
    rw [hp, h.marker_eq, List.getLast_eq_getLastD, List.getLastD_eq_getLast?]
  have hlinked : l.Linked p q := by
    rw [hp, hq]
    exact h.linked_of_append
  have hnotin := not_or.1 (mt List.mem_append.2 hmem)
  obtain ⟨hip, hiq⟩ := ne_ends_of_not_mem h' hp hq hi hnotin.1 hnotin.2
  have hin : i < n + 1 := Nat.lt_succ_of_lt hi
  have hpn : p < n + 1 := Nat.lt_succ_of_le (getLast_le h' hp)
  have hqn : q < n + 1 := Nat.lt_succ_of_le (head_le h' hq)
  obtain ⟨g, hg⟩ : ∃ g : IndexList, g = ⟨(l.next.setIfInBounds p (some i)).setIfInBounds i (some q),
    (l.prev.setIfInBounds i (some p)).setIfInBounds q (some i), l.size + 1⟩ := ⟨_, rfl⟩
  have hnext : ∀ a, g.next[a]? = if a = i then some (some q) else if a = p then some (some i) else l.next[a]? :=
    hg ▸ getElem?_set_set _ _ (h.size_next ▸ hpn) (h.size_next ▸ hin)
  have hprev : ∀ a, g.prev[a]? = if a = q then some (some i) else if a = i then some (some p) else l.prev[a]? :=
    hg ▸ getElem?_set_set _ _ (h.size_prev ▸ hin) (h.size_prev ▸ hqn)
  have hholds : g.Holds n (ys ++ ([i] ++ zs)) := by
    refine h'.splice hp hq (by simp [hg, h.size_next]) (by simp [hg, h.size_prev]) ?_ ?_ (by simpa using hi) ?_ ?_ ?_
    · simp only [hg, h.size_eq, List.length_append, List.length_singleton]
      omega
    · rw [List.singleton_append, List.nodup_middle, List.nodup_cons]
      exact ⟨hmem, h.nodup⟩
    · intro a _ ha
      rw [List.mem_singleton] at ha
      exact ⟨fun hap => by rw [hnext, if_neg ha, if_neg hap], fun haq => by rw [hprev, if_neg haq, if_neg ha]⟩
    · rw [List.singleton_append, List.isChain_cons_cons, List.isChain_cons_cons]
      refine ⟨⟨?_, ?_⟩, ⟨?_, ?_⟩, List.isChain_singleton q⟩
      · rw [hnext, if_neg (Ne.symm hip), if_pos rfl]
      · rw [hprev, if_neg hiq, if_pos rfl]
      · rw [hnext, if_pos rfl]
      · rw [hprev, if_pos rfl]
    · exact fun _ hms => absurd hms List.not_mem_nil
  refine ⟨g, ?_, hholds⟩
  rw [insertAfter, h.contains_eq hi, ok_bind, require_of_true (by simpa using hmem), ok_bind]
  dsimp only
  rw [hpos, follow_ok hlinked.1, ok_bind, store_of_lt' _ (by rw [h.size_next]; exact hpn), ok_bind,
    store_of_lt' _ (by rw [Array.size_setIfInBounds, h.size_next]; exact hin), ok_bind,
    store_of_lt' _ (by rw [h.size_prev]; exact hin), ok_bind,
    store_of_lt' _ (by rw [Array.size_setIfInBounds, h.size_prev]; exact hqn), ok_bind, hg]
  rfl

/-- An index is linked behind all entries. -/
theorem Holds.pushBack_ok (h : l.Holds n xs) (hi : i < n) (hmem : i ∉ xs) :
    ∃ l', l.pushBack i = .ok l' ∧ l'.Holds n (xs ++ [i]) := by
  have h' : l.Holds n (xs ++ []) := by rwa [List.append_nil]
  obtain ⟨l', hl', hholds⟩ := h'.insertAfter_ok hi (by rwa [List.append_nil])
  exact ⟨l', by rw [pushBack, h.last_eq, ok_bind, hl'], hholds⟩

/-- An entry is taken out of the list. -/
theorem Holds.unlink_ok (h : l.Holds n (ys ++ i :: zs)) :
    ∃ l', l.unlink i = .ok l' ∧ l'.Holds n (ys ++ zs) := by
  have h' : l.Holds n (ys ++ ([i] ++ zs)) := h
  obtain ⟨p, hp⟩ : ∃ p, p = (n :: ys).getLast (List.cons_ne_nil _ _) := ⟨_, rfl⟩
  obtain ⟨q, hq⟩ : ∃ q, q = (zs ++ [n]).head (by simp) := ⟨_, rfl⟩
  have hprevl : l.Linked p i := by
    rw [hp]
    exact h.linked_prev
  have hnextl : l.Linked i q := by
    rw [hq]
    exact h.linked_next
  have hi : i < n := h.lt i (by simp)
  have hnodup := List.nodup_cons.1 (List.nodup_middle.1 h.nodup)
  have hnotin := not_or.1 (mt List.mem_append.2 hnodup.1)
  obtain ⟨hip, hiq⟩ := ne_ends_of_not_mem h' hp hq hi hnotin.1 hnotin.2
  have hin : i < n + 1 := Nat.lt_succ_of_lt hi
  have hpn : p < n + 1 := Nat.lt_succ_of_le (getLast_le h' hp)
  have hqn : q < n + 1 := Nat.lt_succ_of_le (head_le h' hq)
  obtain ⟨g, hg⟩ : ∃ g : IndexList, g = ⟨(l.next.setIfInBounds p (some q)).setIfInBounds i none,
    (l.prev.setIfInBounds q (some p)).setIfInBounds i none, l.size - 1⟩ := ⟨_, rfl⟩
  have hnext : ∀ a, g.next[a]? = if a = i then some none else if a = p then some (some q) else l.next[a]? :=
    hg ▸ getElem?_set_set _ _ (h.size_next ▸ hpn) (h.size_next ▸ hin)
  have hprev : ∀ a, g.prev[a]? = if a = i then some none else if a = q then some (some p) else l.prev[a]? :=
    hg ▸ getElem?_set_set _ _ (h.size_prev ▸ hqn) (h.size_prev ▸ hin)
  have hholds : g.Holds n (ys ++ ([] ++ zs)) := by
    refine h'.splice hp hq (by simp [hg, h.size_next]) (by simp [hg, h.size_prev]) ?_ hnodup.2 (by simp) ?_ ?_ ?_
    · simp only [hg, h.size_eq, List.nil_append, List.length_append, List.length_cons]
      omega
    · intro a ha _
      rw [List.mem_singleton] at ha
      exact ⟨fun hap => by rw [hnext, if_neg ha, if_neg hap], fun haq => by rw [hprev, if_neg ha, if_neg haq]⟩
    · rw [List.nil_append, List.isChain_cons_cons]
      refine ⟨⟨?_, ?_⟩, List.isChain_singleton q⟩
      · rw [hnext, if_neg (Ne.symm hip), if_pos rfl]
      · rw [hprev, if_neg (Ne.symm hiq), if_pos rfl]
    · intro j hj _
      rw [List.mem_singleton] at hj
      exact ⟨by rw [hnext, if_pos hj], by rw [hprev, if_pos hj]⟩
  refine ⟨g, ?_, hholds⟩
  have hsize : subtract l.size 1 = .ok (l.size - 1) := by
    rw [subtract, if_pos]
    rw [h.size_eq, List.length_append, List.length_cons]
    omega
  rw [unlink, follow_ok hprevl.2, ok_bind, follow_ok hnextl.1, ok_bind,
    store_of_lt' _ (by rw [h.size_next]; exact hpn), ok_bind,
    store_of_lt' _ (by rw [Array.size_setIfInBounds, h.size_next]; exact hin), ok_bind,
    store_of_lt' _ (by rw [h.size_prev]; exact hqn), ok_bind,
    store_of_lt' _ (by rw [Array.size_setIfInBounds, h.size_prev]; exact hin), ok_bind, hsize, hg]
  rfl

/-- The search for a linked index looks at one index after the other. -/
theorem Holds.seekWithin_eq (h : l.Holds n xs) {start count : Nat} (hn : start + count ≤ n) :
    l.seekWithin start count = .ok ((List.range' start count).find? (· ∈ xs)) := by
  induction count generalizing start with
  | zero => rfl
  | succ count ih =>
      rw [seekWithin, h.contains_eq (by omega), ok_bind, List.range'_succ, List.find?_cons]
      by_cases hmem : start ∈ xs
      · rw [decide_eq_true hmem]
        rfl
      · rw [decide_eq_false hmem]
        exact ih (by omega)

theorem Holds.seek_eq (h : l.Holds n xs) {start stop : Nat} (hn : stop ≤ n) :
    l.seek start stop = .ok ((List.range' start (stop - start)).find? (· ∈ xs)) := by
  rcases Nat.le_total stop start with hle | hle
  · rw [seek, Nat.sub_eq_zero_of_le hle]
    rfl
  · exact h.seekWithin_eq (by omega)

theorem Holds.agrees_eq (h : l.Holds n (ys ++ zs)) :
    l.agrees zs.length ((zs ++ [n]).head (by simp)) = .ok true := by
  induction zs generalizing ys with
  | nil => simp [agrees, h.marker_eq, pure, Except.pure]
  | cons i zs ih =>
      have happ : ys ++ i :: zs = (ys ++ [i]) ++ zs := by simp
      have hin : i ≠ n := (h.lt i (by simp)).ne
      have hafter := h.linked_next
      have hbefore := h.linked_prev
      rw [List.length_cons]
      simp only [List.cons_append, List.head_cons]
      rw [agrees, h.marker_eq, beq_eq_false_iff_ne.2 hin, fetch_eq_ok_iff.2 hafter.1, fetch_eq_ok_iff.2 hbefore.2]
      simp only [Bool.false_eq_true, if_false, ok_bind, fetch_eq_ok_iff.2 hbefore.1, fetch_eq_ok_iff.2 hafter.2,
        beq_self_eq_true, Bool.and_self, if_true]
      exact ih (happ ▸ h)

/-- The links of a list agree in both directions. -/
theorem Holds.isConsistent_ok (h : l.Holds n xs) : l.isConsistent = .ok true := by
  have hstart : (([] : List Nat) ++ xs) = xs := rfl
  rw [isConsistent, h.marker_eq, fetch_eq_ok_iff.2 h.next_marker.1, ok_bind, h.size_eq]
  exact Holds.agrees_eq (hstart ▸ h)

end PolyProjection.IndexList
