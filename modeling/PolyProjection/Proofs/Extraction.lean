import PolyProjection.Proofs.BreakHeap
import PolyProjection.Proofs.Ordered
import PolyProjection.Proofs.Table

/-! The heap as a finite map from candidates to break values with an ordered extraction. A sequence of operations is
replayed on a function, and the heap gives the same answers; what it takes out first is the entry that is smallest by
break value and candidate. The break values are scalars in a total order. -/

namespace PolyProjection.BreakHeap

set_option linter.unusedSectionVars false

variable {α : Type} [Scalar α] {h h' : BreakHeap α} {m : ℕ → Option α} {n : ℕ}

/-- An operation on a heap. -/
inductive Step (α : Type) where
  | insert (c : ℕ) (key : α)
  | update (c : ℕ) (key : α)
  | delete (c : ℕ)
  | popMin
  | peekMin
  | key (c : ℕ)
  | contains (c : ℕ)
  | clear

/-- What an operation answers. -/
inductive Answer (α : Type) where
  | done
  | entry (e : Option (ℕ × α))
  | key (key : Option α)
  | found (b : Bool)

/-- The answer of an operation, and the heap after it. -/
def Step.run (h : BreakHeap α) : Step α → Checked (Answer α × BreakHeap α)
  | insert c v => return (.done, ← h.insert c v)
  | update c v => return (.done, ← h.update c v)
  | delete c => return (.done, ← h.delete c)
  | popMin => do
    let (e, h) ← h.popMin
    return (.entry e, h)
  | peekMin => return (.entry (← h.peekMin), h)
  | key c => return (.key (← h.key? c), h)
  | contains c => return (.found (← h.contains c), h)
  | clear => return (.done, ← h.clear)

/-- The answers of one operation after the other, and the heap after them. -/
def runAll (h : BreakHeap α) : List (Step α) → Checked (List (Answer α) × BreakHeap α)
  | [] => return ([], h)
  | step :: steps => do
    let (answer, h) ← step.run h
    let (answers, h) ← h.runAll steps
    return (answer :: answers, h)

/-- Entry `e` comes before entry `f`. -/
def Precedes (e f : ℕ × α) : Prop :=
  e.2 < f.2 ∨ (e.2 == f.2) = true ∧ e.1 < f.1

/-- The entries of a map over the candidates below `n`, by candidate. -/
def entries (n : ℕ) (m : ℕ → Option α) : List (ℕ × α) :=
  (List.range n).filterMap fun c => (m c).map fun key => (c, key)

/-- The first of some entries, which are listed by candidate. -/
def first? : List (ℕ × α) → Option (ℕ × α)
  | [] => none
  | e :: es =>
    match first? es with
    | none => some e
    | some f => if f.2 < e.2 then some f else some e

/-- The map after an operation. -/
def Step.after (n : ℕ) (m : ℕ → Option α) : Step α → ℕ → Option α
  | insert c v => Function.update m c (some v)
  | update c v => Function.update m c (some v)
  | delete c => Function.update m c none
  | popMin =>
    match first? (entries n m) with
    | none => m
    | some e => Function.update m e.1 none
  | clear => fun _ => none
  | _ => m

/-- The answer of a map to an operation. -/
def Step.answer (n : ℕ) (m : ℕ → Option α) : Step α → Answer α
  | popMin => .entry (first? (entries n m))
  | peekMin => .entry (first? (entries n m))
  | key c => .key (m c)
  | contains c => .found (m c).isSome
  | _ => .done

/-- The answers of a map to one operation after the other, and the map after them. -/
def replay (n : ℕ) (m : ℕ → Option α) : List (Step α) → List (Answer α) × (ℕ → Option α)
  | [] => ([], m)
  | step :: steps =>
    let rest := replay n (step.after n m) steps
    (step.answer n m :: rest.1, rest.2)

/-- An absent candidate is inserted, a present one is updated or deleted. -/
def Step.Admitted (n : ℕ) (m : ℕ → Option α) : Step α → Prop
  | insert c _ => c < n ∧ m c = none
  | update c _ => m c ≠ none
  | delete c => m c ≠ none
  | key c => c < n
  | contains c => c < n
  | _ => True

/-- Every operation of a sequence is admitted after the ones before it. -/
def Admits (n : ℕ) : (ℕ → Option α) → List (Step α) → Prop
  | _, [] => True
  | m, step :: steps => step.Admitted n m ∧ Admits n (step.after n m) steps

/-- The entry comes before all other ones of the map, or there is none. -/
def IsFirst (m : ℕ → Option α) : Option (ℕ × α) → Prop
  | none => ∀ c, m c = none
  | some e => m e.1 = some e.2 ∧ ∀ c key, m c = some key → c ≠ e.1 → Precedes e (c, key)

/-- What is taken out of a heap one after the other, up to `count` entries. -/
def drain (h : BreakHeap α) : ℕ → Checked (List (ℕ × α))
  | 0 => return []
  | count + 1 => do
    let (e, h) ← h.popMin
    match e with
    | none => return []
    | some e => return e :: (← h.drain count)

/-- A heap tells the same as a map over the candidates below `n`. -/
structure Refines (h : BreakHeap α) (n : ℕ) (m : ℕ → Option α) : Prop where
  isValid : h.isValid = .ok true
  size_eq : h.size = (entries n m).length
  contains : ∀ c < n, h.contains c = .ok (m c).isSome
  key? : ∀ c < n, h.key? c = .ok (m c)
  peekMin : h.peekMin = .ok (first? (entries n m))
  isFirst : IsFirst m (first? (entries n m))
  drain : ∀ count, h.size ≤ count → ∃ es, h.drain count = .ok es ∧ es.Perm (entries n m) ∧ es.Pairwise Precedes

section Entries

theorem mem_entries {e : ℕ × α} : e ∈ entries n m ↔ e.1 < n ∧ m e.1 = some e.2 := by
  rw [entries, List.mem_filterMap]
  constructor
  · rintro ⟨c, hc, he⟩
    obtain ⟨key, hkey, rfl⟩ := Option.map_eq_some_iff.1 he
    exact ⟨List.mem_range.1 hc, hkey⟩
  · rintro ⟨hlt, hkey⟩
    exact ⟨e.1, List.mem_range.2 hlt, by rw [hkey]; rfl⟩

theorem entries_ascending (n : ℕ) (m : ℕ → Option α) : (entries n m).Pairwise fun e f => e.1 < f.1 := by
  refine List.Pairwise.filterMap _ (fun c d hcd e he f hf => ?_) List.pairwise_lt_range
  obtain ⟨_, -, rfl⟩ := Option.map_eq_some_iff.1 he
  obtain ⟨_, -, rfl⟩ := Option.map_eq_some_iff.1 hf
  exact hcd

theorem nodup_entries (n : ℕ) (m : ℕ → Option α) : (entries n m).Nodup :=
  (entries_ascending n m).imp fun hlt heq => hlt.ne (congrArg Prod.fst heq)

/-- The entries without those of one candidate. -/
theorem perm_entries {e : ℕ × α} (hlt : e.1 < n) (he : m e.1 = some e.2) :
    (entries n m).Perm (e :: entries n (Function.update m e.1 none)) := by
  have hnot : e ∉ entries n (Function.update m e.1 none) := fun hin => by
    have hkey := (mem_entries.1 hin).2
    rw [Function.update_self] at hkey
    cases hkey
  refine (List.perm_ext_iff_of_nodup (nodup_entries n m) (List.nodup_cons.2 ⟨hnot, nodup_entries n _⟩)).2 fun f => ?_
  rw [List.mem_cons, mem_entries, mem_entries]
  by_cases hf : f.1 = e.1
  · rw [hf, Function.update_self, he]
    constructor
    · rintro ⟨-, hkey⟩
      exact .inl (Prod.ext hf (Option.some.inj hkey).symm)
    · rintro (rfl | ⟨-, hkey⟩)
      · exact ⟨hlt, rfl⟩
      · cases hkey
  · rw [Function.update_of_ne hf, or_iff_right fun heq => hf (congrArg Prod.fst heq)]

end Entries

section Order

variable {L : Type} [LinearOrder L] {r : α → L}

theorem precedes_iff (hr : Orders r) {e f : ℕ × α} :
    Precedes e f ↔ (toLex (r e.2, e.1) : L ×ₗ ℕ) < toLex (r f.2, f.1) := by
  rw [Precedes, Prod.Lex.toLex_lt_toLex, hr.lt_iff, hr.beq_iff]

theorem first?_eq_none_iff {es : List (ℕ × α)} : first? es = none ↔ es = [] := by
  cases es with
  | nil => exact ⟨fun _ => rfl, fun _ => rfl⟩
  | cons e es =>
      refine ⟨fun hnone => ?_, nofun⟩
      rw [first?] at hnone
      split at hnone
      · cases hnone
      · split at hnone <;> cases hnone

/-- The scan finds the entry that comes before all other ones. -/
theorem first?_eq_some (hr : Orders r) {es : List (ℕ × α)} (hes : es.Pairwise fun e f => e.1 < f.1) {e : ℕ × α}
    (he : first? es = some e) : e ∈ es ∧ ∀ f ∈ es, f ≠ e → Precedes e f := by
  induction es generalizing e with
  | nil => cases he
  | cons d es ih =>
      rw [List.pairwise_cons] at hes
      rw [first?] at he
      cases hrest : first? es with
      | none =>
          rw [hrest, Option.some.injEq] at he
          rw [first?_eq_none_iff.1 hrest, ← he]
          exact ⟨List.mem_cons_self, fun f hf hne => absurd (List.mem_singleton.1 hf) hne⟩
      | some f =>
          obtain ⟨hf, hmin⟩ := ih hes.2 hrest
          rw [hrest] at he
          dsimp only at he
          split_ifs at he with hlt
          · obtain rfl := Option.some.inj he
            refine ⟨List.mem_cons_of_mem d hf, fun g hg hne => ?_⟩
            rcases List.mem_cons.1 hg with rfl | hg
            · exact .inl hlt
            · exact hmin g hg hne
          · obtain rfl := Option.some.inj he
            have hdf : Precedes d f := by
              rw [precedes_iff hr, Prod.Lex.toLex_lt_toLex]
              rw [hr.lt_iff, not_lt] at hlt
              rcases hlt.lt_or_eq with hlt | heq
              · exact .inl hlt
              · exact .inr ⟨heq, hes.1 f hf⟩
            refine ⟨List.mem_cons_self, fun g hg hne => ?_⟩
            have hg := (List.mem_cons.1 hg).resolve_left hne
            by_cases hgf : g = f
            · rwa [hgf]
            · exact (precedes_iff hr).2 (((precedes_iff hr).1 hdf).trans ((precedes_iff hr).1 (hmin g hg hgf)))

theorem isFirst_first? (hr : Orders r) (hm : ∀ c, m c ≠ none → c < n) : IsFirst m (first? (entries n m)) := by
  cases hfirst : first? (entries n m) with
  | none =>
      intro c
      by_contra hne
      obtain ⟨key, hkey⟩ := Option.ne_none_iff_exists'.1 hne
      have hin : (c, key) ∈ entries n m := mem_entries.2 ⟨hm c hne, hkey⟩
      rw [first?_eq_none_iff.1 hfirst] at hin
      cases hin
  | some e =>
      obtain ⟨hin, hmin⟩ := first?_eq_some hr (entries_ascending n m) hfirst
      refine ⟨(mem_entries.1 hin).2, fun c key hkey hne => hmin (c, key) ?_ fun heq => hne (congrArg Prod.fst heq)⟩
      exact mem_entries.2 ⟨hm c (by rw [hkey]; exact Option.some_ne_none key), hkey⟩

/-- A map has one first entry. -/
theorem IsFirst.unique (hr : Orders r) {o o' : Option (ℕ × α)} (ho : IsFirst m o) (ho' : IsFirst m o') : o = o' := by
  cases o with
  | none =>
      cases o' with
      | none => rfl
      | some f => rw [IsFirst, ho f.1] at ho'; cases ho'.1
  | some e =>
      cases o' with
      | none => rw [IsFirst, ho' e.1] at ho; cases ho.1
      | some f =>
          by_cases hef : f.1 = e.1
          · have hkey := ho.1
            rw [← hef, ho'.1] at hkey
            exact congrArg some (Prod.ext hef.symm (Option.some.inj hkey).symm)
          · have hlt := (precedes_iff hr).1 (ho.2 f.1 f.2 ho'.1 hef)
            have hgt := (precedes_iff hr).1 (ho'.2 e.1 e.2 ho.1 (Ne.symm hef))
            exact absurd hgt hlt.asymm

end Order

/-- The candidates of a heap with their break values are the entries of a map. -/
structure Tracks {L : Type} [LinearOrder L] (r : α → L) (h : BreakHeap α) (n : ℕ) (m : ℕ → Option α) : Prop extends
    h.Heaped r n where
  entry_iff : ∀ c key, m c = some key ↔ h.Has c ∧ h.keyOf c = key

section Steps

variable {L : Type} [LinearOrder L] {r : α → L} {c : ℕ} {key : α}

theorem tracks_empty (n : ℕ) : (empty n : BreakHeap α).Tracks r n fun _ => none :=
  ⟨heaped_empty n, fun c _ => ⟨nofun, fun hc => absurd hc.1 (not_has_empty n c)⟩⟩

theorem Tracks.has_iff (ht : h.Tracks r n m) : h.Has c ↔ m c ≠ none := by
  rw [Option.ne_none_iff_exists']
  constructor
  · exact fun hc => ⟨_, (ht.entry_iff c _).2 ⟨hc, rfl⟩⟩
  · rintro ⟨key, hkey⟩
    exact ((ht.entry_iff c key).1 hkey).1

theorem Tracks.lt (ht : h.Tracks r n m) (hc : m c ≠ none) : c < n :=
  (ht.has_iff.2 hc).lt ht.toPlaced

/-- One candidate gets a break value. -/
theorem Tracks.of_set (ht : h.Tracks r n m) (hv : h'.Heaped r n) (hc : c < n) (hhas : ∀ d, h'.Has d ↔ d = c ∨ h.Has d)
    (hkeys : h'.keys = h.keys.setIfInBounds c key) : h'.Tracks r n (Function.update m c (some key)) := by
  refine ⟨hv, fun d v => ?_⟩
  rw [hhas, keyOf_set hkeys (by rw [ht.size_keys]; exact hc)]
  by_cases hdc : d = c
  · simp [hdc]
  · simp [hdc, ht.entry_iff]

/-- One candidate leaves. -/
theorem Tracks.of_remove (ht : h.Tracks r n m) (hv : h'.Heaped r n) (hhas : ∀ d, h'.Has d ↔ d ≠ c ∧ h.Has d)
    (hkeys : h'.keys = h.keys) : h'.Tracks r n (Function.update m c none) := by
  have hkeyOf : ∀ d, h'.keyOf d = h.keyOf d := fun d => by rw [keyOf, keyOf, hkeys]
  refine ⟨hv, fun d v => ?_⟩
  rw [hhas, hkeyOf]
  by_cases hdc : d = c
  · simp [hdc]
  · simp [hdc, ht.entry_iff]

theorem Tracks.insert_ok (hr : Orders r) (ht : h.Tracks r n m) (hc : c < n) (hnone : m c = none) (key : α) :
    ∃ h', h.insert c key = .ok h' ∧ h'.Tracks r n (Function.update m c (some key)) := by
  obtain ⟨h', hok, hv, hhas, hkeys⟩ := ht.toHeaped.insert_ok hr hc (fun hin => ht.has_iff.1 hin hnone) key
  exact ⟨h', hok, ht.of_set hv hc hhas hkeys⟩

theorem Tracks.update_ok (hr : Orders r) (ht : h.Tracks r n m) (hc : m c ≠ none) (key : α) :
    ∃ h', h.update c key = .ok h' ∧ h'.Tracks r n (Function.update m c (some key)) := by
  have hin := ht.has_iff.2 hc
  obtain ⟨h', hok, hv, hhas, hkeys⟩ := ht.toHeaped.update_ok hr hin key
  refine ⟨h', hok, ht.of_set hv (ht.lt hc) (fun d => ?_) hkeys⟩
  rw [hhas, or_iff_right_of_imp fun hdc => hdc ▸ hin]

theorem Tracks.delete_ok (hr : Orders r) (ht : h.Tracks r n m) (hc : m c ≠ none) :
    ∃ h', h.delete c = .ok h' ∧ h'.Tracks r n (Function.update m c none) := by
  obtain ⟨h', hok, hv, hhas, hkeys⟩ := ht.toHeaped.delete_ok hr (ht.has_iff.2 hc)
  exact ⟨h', hok, ht.of_remove hv hhas hkeys⟩

theorem Tracks.clear_ok (ht : h.Tracks r n m) : ∃ h', h.clear = .ok h' ∧ h'.Tracks r n fun _ => none := by
  obtain ⟨h', hok, hv, hnot, -⟩ := ht.toHeaped.clear_ok
  exact ⟨h', hok, hv, fun c _ => ⟨nofun, fun hc => absurd hc.1 (hnot c)⟩⟩

theorem Tracks.contains_ok (ht : h.Tracks r n m) (hc : c < n) : h.contains c = .ok (m c).isSome := by
  classical
  rw [ht.contains_eq hc, Except.ok.injEq, Bool.eq_iff_iff, decide_eq_true_eq, ht.has_iff, Option.isSome_iff_ne_none]

theorem Tracks.key?_ok (ht : h.Tracks r n m) (hc : c < n) : h.key? c = .ok (m c) := by
  rw [key?, ht.contains_ok hc, ok_bind]
  cases hkey : m c with
  | none => rfl
  | some key =>
      obtain ⟨-, rfl⟩ := (ht.entry_iff c key).1 hkey
      rw [Option.isSome_some, if_pos rfl, fetch_keyOf (by rw [ht.size_keys]; exact hc), ok_bind]
      rfl

/-- What is seen first is the first entry of the map. -/
theorem Tracks.peekMin_ok (hr : Orders r) (ht : h.Tracks r n m) : h.peekMin = .ok (first? (entries n m)) := by
  have hfirst := isFirst_first? hr (n := n) (m := m) fun c hc => ht.lt hc
  rcases ht.toHeaped.peekMin_eq with ⟨hsize, hpeek⟩ | ⟨c, hpeek, hhas, hmin⟩
  · have hnone : IsFirst m none := fun c => by
      by_contra hne
      obtain ⟨p, hp, -⟩ := ht.has_iff.2 hne
      omega
    rw [hpeek, hfirst.unique hr hnone]
  · have hsome : IsFirst m (some (c, h.keyOf c)) := by
      refine ⟨(ht.entry_iff c _).2 ⟨hhas, rfl⟩, fun d key hkey hne => (precedes_iff hr).2 ?_⟩
      obtain ⟨hd, rfl⟩ := (ht.entry_iff d key).1 hkey
      refine lt_of_le_of_ne (hmin d hd) fun heq => hne ?_
      exact (congrArg Prod.snd (toLex.injective heq)).symm
    rw [hpeek, hfirst.unique hr hsome]

theorem Tracks.popMin_ok (hr : Orders r) (ht : h.Tracks r n m) :
    ∃ h', h.popMin = .ok (first? (entries n m), h') ∧ h'.Tracks r n (Step.popMin.after n m) := by
  have hpeek := ht.peekMin_ok hr
  cases hfirst : first? (entries n m) with
  | none =>
      refine ⟨h, by rw [popMin, hpeek, ok_bind, hfirst]; rfl, ?_⟩
      rwa [Step.after, hfirst]
  | some e =>
      have hin := mem_entries.1 (first?_eq_some hr (entries_ascending n m) hfirst).1
      obtain ⟨h', hok, ht'⟩ := ht.delete_ok hr (c := e.1) (by rw [hin.2]; exact Option.some_ne_none _)
      refine ⟨h', ?_, by rwa [Step.after, hfirst]⟩
      rw [popMin, hpeek, ok_bind, hfirst]
      dsimp only
      rw [hok, ok_bind]
      rfl

/-- One admitted operation. -/
theorem Tracks.run_ok (hr : Orders r) (ht : h.Tracks r n m) {step : Step α} (hstep : step.Admitted n m) :
    ∃ h', step.run h = .ok (step.answer n m, h') ∧ h'.Tracks r n (step.after n m) := by
  cases step with
  | insert c key =>
      obtain ⟨h', hok, ht'⟩ := ht.insert_ok hr hstep.1 hstep.2 key
      exact ⟨h', by rw [Step.run, hok, ok_bind]; rfl, ht'⟩
  | update c key =>
      obtain ⟨h', hok, ht'⟩ := ht.update_ok hr hstep key
      exact ⟨h', by rw [Step.run, hok, ok_bind]; rfl, ht'⟩
  | delete c =>
      obtain ⟨h', hok, ht'⟩ := ht.delete_ok hr hstep
      exact ⟨h', by rw [Step.run, hok, ok_bind]; rfl, ht'⟩
  | popMin =>
      obtain ⟨h', hok, ht'⟩ := ht.popMin_ok hr
      exact ⟨h', by rw [Step.run, hok, ok_bind]; rfl, ht'⟩
  | peekMin => exact ⟨h, by rw [Step.run, ht.peekMin_ok hr, ok_bind]; rfl, ht⟩
  | key c => exact ⟨h, by rw [Step.run, ht.key?_ok hstep, ok_bind]; rfl, ht⟩
  | contains c => exact ⟨h, by rw [Step.run, ht.contains_ok hstep, ok_bind]; rfl, ht⟩
  | clear =>
      obtain ⟨h', hok, ht'⟩ := ht.clear_ok
      exact ⟨h', by rw [Step.run, hok, ok_bind]; rfl, ht'⟩

/-- A sequence of admitted operations. -/
theorem Tracks.runAll_ok (hr : Orders r) (ht : h.Tracks r n m) {steps : List (Step α)} (hsteps : Admits n m steps) :
    ∃ h', h.runAll steps = .ok ((replay n m steps).1, h') ∧ h'.Tracks r n (replay n m steps).2 := by
  induction steps generalizing h m with
  | nil => exact ⟨h, rfl, ht⟩
  | cons step steps ih =>
      obtain ⟨h₁, hrun, ht₁⟩ := ht.run_ok hr hsteps.1
      obtain ⟨h', hok, ht'⟩ := ih ht₁ hsteps.2
      refine ⟨h', ?_, ht'⟩
      rw [runAll, hrun, ok_bind]
      dsimp only
      rw [hok, ok_bind]
      rfl

/-- The slots hold the candidates of the entries. -/
theorem Tracks.perm_slots (ht : h.Tracks r n m) : h.slots.toList.Perm ((entries n m).map Prod.fst) := by
  have hentries : ((entries n m).map Prod.fst).Nodup :=
    List.pairwise_map.2 ((entries_ascending n m).imp fun hlt => hlt.ne)
  refine (List.perm_ext_iff_of_nodup ht.nodup_slots hentries).2 fun c => ?_
  rw [mem_slots, List.mem_map]
  constructor
  · intro hc
    have hkey := (ht.entry_iff c _).2 ⟨hc, rfl⟩
    exact ⟨(c, h.keyOf c), mem_entries.2 ⟨hc.lt ht.toPlaced, hkey⟩, rfl⟩
  · rintro ⟨e, he, rfl⟩
    exact ((ht.entry_iff e.1 e.2).1 (mem_entries.1 he).2).1

theorem Tracks.size_eq (ht : h.Tracks r n m) : h.size = (entries n m).length := by
  simpa [size] using ht.perm_slots.length_eq

/-- One entry after the other comes out, each before those that are left. -/
theorem Tracks.drain_ok (hr : Orders r) (ht : h.Tracks r n m) {count : ℕ} (hcount : h.size ≤ count) :
    ∃ es, h.drain count = .ok es ∧ es.Perm (entries n m) ∧ es.Pairwise Precedes := by
  induction count generalizing h m with
  | zero =>
      have hnil : entries n m = [] := List.length_eq_zero_iff.1 (by rw [← ht.size_eq]; omega)
      exact ⟨[], rfl, hnil ▸ List.Perm.nil, List.Pairwise.nil⟩
  | succ count ih =>
      obtain ⟨h₁, hpop, ht₁⟩ := ht.popMin_ok hr
      cases hfirst : first? (entries n m) with
      | none =>
          rw [hfirst] at hpop
          refine ⟨[], by rw [drain, hpop, ok_bind]; rfl, ?_, List.Pairwise.nil⟩
          rw [first?_eq_none_iff.1 hfirst]
      | some e =>
          have hmin := isFirst_first? hr (n := n) (m := m) fun c hc => ht.lt hc
          have hin := mem_entries.1 (first?_eq_some hr (entries_ascending n m) hfirst).1
          have hperm := perm_entries hin.1 hin.2
          rw [Step.after, hfirst] at ht₁
          dsimp only at ht₁
          rw [hfirst] at hpop hmin
          have hsize : h₁.size ≤ count := by
            have hlength := hperm.length_eq
            rw [List.length_cons, ← ht.size_eq, ← ht₁.size_eq] at hlength
            omega
          obtain ⟨es, hdrain, hes, hpair⟩ := ih ht₁ hsize
          refine ⟨e :: es, ?_, (hes.cons e).trans hperm.symm, List.pairwise_cons.2 ⟨fun f hf => ?_, hpair⟩⟩
          · rw [drain, hpop, ok_bind]
            dsimp only
            rw [hdrain, ok_bind]
            rfl
          · have hkey := (mem_entries.1 (hes.mem_iff.1 hf)).2
            have hne : f.1 ≠ e.1 := by
              intro hfe
              rw [hfe, Function.update_self] at hkey
              cases hkey
            rw [Function.update_of_ne hne] at hkey
            exact hmin.2 f.1 f.2 hkey hne

/-- What a heap that follows the replay tells. -/
theorem Tracks.refines (hr : Orders r) (ht : h.Tracks r n m) : h.Refines n m where
  isValid := ht.toHeaped.isValid_ok hr
  size_eq := ht.size_eq
  contains := fun _ hc => ht.contains_ok hc
  key? := fun _ hc => ht.key?_ok hc
  peekMin := ht.peekMin_ok hr
  isFirst := isFirst_first? hr fun _ hc => ht.lt hc
  drain := fun _ hcount => ht.drain_ok hr hcount

end Steps

/-- A heap that starts empty answers every sequence of operations as the map does, and tells the same afterwards. -/
theorem runAll_refines [OrderedScalar α] (n : ℕ) (steps : List (Step α)) (hsteps : Admits n (fun _ => none) steps) :
    (n ≤ maxLength → (create n : Checked (BreakHeap α)) = .ok (empty n)) ∧
      ∃ h, (empty n).runAll steps = .ok ((replay n (fun _ => none) steps).1, h) ∧
        h.Refines n (replay n (fun _ => none) steps).2 := by
  refine ⟨fun hn => ?_, ?_⟩
  · rw [create, requireLength_eq_ok_iff.2 hn, ok_bind]
    rfl
  · obtain ⟨L, _, r, hlt, hbeq⟩ := OrderedScalar.exists_linearOrder (α := α)
    have hr : Orders r := ⟨hlt, hbeq⟩
    obtain ⟨h, hok, ht⟩ := (tracks_empty n).runAll_ok hr hsteps
    exact ⟨h, hok, ht.refines hr⟩

/-- Of two candidates with one break value the lower one comes out, and the other one stays. -/
def tie : List (Step ℚ) :=
  [.insert 1 (1 / 2), .insert 0 (1 / 3), .update 0 (1 / 2), .popMin, .contains 0, .key 1]

theorem runAll_refines_tie : ∃ h, (empty 2).runAll tie = .ok ([.done, .done, .done, .entry (some (0, 1 / 2)),
    .found false, .key (some (1 / 2))], h) ∧ h.isValid = .ok true ∧ h.size = 1 := by
  have hadmits : Admits 2 (fun _ => none) tie := by
    simp [tie, Admits, Step.Admitted, Step.after]
  have hreplay : entries 2 (replay 2 (fun _ => none) tie).2 = [(1, 1 / 2)] ∧ (replay 2 (fun _ => none) tie).1 =
      [.done, .done, .done, .entry (some (0, 1 / 2)), .found false, .key (some (1 / 2))] := by
    simp [tie, replay, Step.answer, Step.after, entries, first?, List.range_succ, Function.update]
  obtain ⟨h, hok, hrefines⟩ := (runAll_refines 2 tie hadmits).2
  rw [hreplay.2] at hok
  exact ⟨h, hok, hrefines.isValid, by rw [hrefines.size_eq, hreplay.1]; rfl⟩

end PolyProjection.BreakHeap
