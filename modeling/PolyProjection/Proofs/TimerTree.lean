import Mathlib
import PolyProjection.Proofs.Timers

/-! A tree of timers as the set of the paths of names that lead into it. As long as the names at each level differ, a
path is found by the search along it; a new timer adds its own path, and a measurement adds none. -/

namespace PolyProjection

namespace Timer

mutual

/-- The paths of names to a timer and to those below it. -/
def paths : Timer → List (List String)
  | node name _ children => [name] :: (pathsOf children).map (name :: ·)

def pathsOf : List Timer → List (List String)
  | [] => []
  | t :: ts => t.paths ++ pathsOf ts

end

mutual

/-- At each level below a timer the names differ. -/
def Distinct : Timer → Prop
  | node _ _ children => DistinctAll children

def DistinctAll : List Timer → Prop
  | [] => True
  | t :: ts => t.Distinct ∧ (∀ u ∈ ts, u.name ≠ t.name) ∧ DistinctAll ts

end

variable {ts : List Timer} {t : Timer} {key : String} {p q path : List String} {f : List Timer → List Timer} {n : ℕ}

section Paths

theorem mem_pathsOf_iff : p ∈ pathsOf ts ↔ ∃ t ∈ ts, p ∈ t.paths := by
  induction ts with
  | nil => simp [pathsOf]
  | cons t ts ih => rw [pathsOf, List.mem_append, ih, List.exists_mem_cons_iff]

theorem cons_mem_paths_iff : key :: q ∈ t.paths ↔ t.name = key ∧ (q = [] ∨ q ∈ pathsOf t.children) := by
  cases t with
  | node name completed children =>
      simp only [paths, Timer.name, Timer.children, List.mem_cons, List.mem_map, List.cons.injEq]
      constructor
      · rintro (⟨rfl, rfl⟩ | ⟨q, hq, rfl, rfl⟩)
        · exact ⟨rfl, .inl rfl⟩
        · exact ⟨rfl, .inr hq⟩
      · rintro ⟨rfl, rfl | hq⟩
        · exact .inl ⟨rfl, rfl⟩
        · exact .inr ⟨q, hq, rfl, rfl⟩

theorem nil_not_mem_paths (t : Timer) : [] ∉ t.paths := by
  cases t
  simp [paths]

theorem nil_not_mem_pathsOf (ts : List Timer) : [] ∉ pathsOf ts := fun h => by
  obtain ⟨t, -, ht⟩ := mem_pathsOf_iff.1 h
  exact nil_not_mem_paths t ht

theorem cons_mem_pathsOf_iff :
    key :: q ∈ pathsOf ts ↔ ∃ t ∈ ts, t.name = key ∧ (q = [] ∨ q ∈ pathsOf t.children) := by
  rw [mem_pathsOf_iff]
  simp only [cons_mem_paths_iff]

mutual

theorem levels_le_iff (t : Timer) (n : ℕ) : t.levels ≤ n ↔ ∀ p ∈ t.paths, p.length ≤ n := by
  cases t with
  | node name completed children =>
      rw [levels, paths, List.forall_mem_cons, List.length_singleton]
      cases n with
      | zero => simp
      | succ n => simp [levelsOf_le_iff_paths children n]

theorem levelsOf_le_iff_paths (ts : List Timer) (n : ℕ) : levelsOf ts ≤ n ↔ ∀ p ∈ pathsOf ts, p.length ≤ n := by
  cases ts with
  | nil => simp [levelsOf, pathsOf]
  | cons t ts =>
      rw [levelsOf, pathsOf, max_le_iff, levels_le_iff t n, levelsOf_le_iff_paths ts n, List.forall_mem_append]

end

end Paths

section Distinct

theorem distinct_iff : t.Distinct ↔ DistinctAll t.children := by
  cases t
  rfl

theorem distinctAll_iff : DistinctAll ts ↔ (ts.map name).Nodup ∧ ∀ t ∈ ts, DistinctAll t.children := by
  induction ts with
  | nil => simp [DistinctAll]
  | cons t ts ih =>
      rw [DistinctAll, ih, distinct_iff, List.map_cons, List.nodup_cons, List.mem_map, List.forall_mem_cons]
      push Not
      tauto

theorem eq_of_name_eq (h : DistinctAll ts) {u : Timer} (ht : t ∈ ts) (hu : u ∈ ts) (hname : t.name = u.name) : t = u :=
  List.inj_on_of_nodup_map (distinctAll_iff.1 h).1 ht hu hname

/-- Where the names differ, the search along a path finds the paths of the tree. -/
theorem hasPath_iff (h : DistinctAll ts) : hasPath ts p = true ↔ p = [] ∨ p ∈ pathsOf ts := by
  induction p generalizing ts with
  | nil => simp [hasPath]
  | cons key rest ih =>
      rw [hasPath, cons_mem_pathsOf_iff]
      split
      · rename_i t ht
        have hmem := List.mem_of_find?_eq_some ht
        have hname : t.name = key := by simpa using List.find?_some ht
        rw [ih ((distinctAll_iff.1 h).2 t hmem)]
        simp only [reduceCtorEq, false_or]
        constructor
        · intro hrest
          exact ⟨t, hmem, hname, hrest⟩
        · rintro ⟨u, hu, huname, hrest⟩
          rwa [eq_of_name_eq h hmem hu (hname.trans huname.symm)]
      · rename_i hnone
        simp only [Bool.false_eq_true, reduceCtorEq, false_or, false_iff, not_exists, not_and]
        intro t ht hname
        have := List.find?_eq_none.1 hnone t ht
        simp [hname] at this

theorem hasPath_cons (h : hasPath ts (key :: q) = true) :
    ∃ t ∈ ts, t.name = key ∧ hasPath t.children q = true := by
  rw [hasPath] at h
  split at h
  · rename_i t ht
    exact ⟨t, List.mem_of_find?_eq_some ht, by simpa using List.find?_some ht, h⟩
  · cases h

/-- A path of which a longer one is there is there itself. -/
theorem hasPath_of_append (h : hasPath ts (p ++ q) = true) : hasPath ts p = true := by
  induction p generalizing ts with
  | nil => rw [hasPath]
  | cons key rest ih =>
      rw [List.cons_append, hasPath] at h
      rw [hasPath]
      split at h
      · exact ih h
      · cases h

end Distinct

section Changes

variable {u : Timer → Timer}

theorem name_ite (t : Timer) (key : String) (completed : Bool) (children : List Timer) :
    (if t.name == key then node key completed children else t).name = t.name := by
  split_ifs with hname
  · exact (beq_iff_eq.1 hname).symm
  · rfl

theorem children_ite (t : Timer) (key : String) (completed : Bool) (children : List Timer) :
    (if t.name == key then node key completed children else t).children =
      if t.name = key then children else t.children := by
  by_cases hname : t.name = key
  · rw [if_pos (beq_iff_eq.2 hname), if_pos hname]
    rfl
  · rw [if_neg fun h => hname (beq_iff_eq.1 h), if_neg hname]

theorem cons_mem_pathsOf_map (hu : ∀ t, (u t).name = t.name) :
    key :: q ∈ pathsOf (ts.map u) ↔ ∃ t ∈ ts, t.name = key ∧ (q = [] ∨ q ∈ pathsOf (u t).children) := by
  rw [cons_mem_pathsOf_iff]
  constructor
  · rintro ⟨_, hmem, hname, hq⟩
    obtain ⟨t, ht, rfl⟩ := List.mem_map.1 hmem
    exact ⟨t, ht, (hu t).symm.trans hname, hq⟩
  · rintro ⟨t, ht, hname, hq⟩
    exact ⟨u t, List.mem_map_of_mem ht, (hu t).trans hname, hq⟩

theorem distinctAll_map (hu : ∀ t, (u t).name = t.name) (h : DistinctAll ts)
    (hbelow : ∀ t ∈ ts, DistinctAll (u t).children) : DistinctAll (ts.map u) := by
  refine distinctAll_iff.2 ⟨?_, List.forall_mem_map.2 hbelow⟩
  rw [List.map_map, show name ∘ u = name from funext hu]
  exact (distinctAll_iff.1 h).1

theorem distinctAll_add (key : String) (h : DistinctAll ts) : DistinctAll (add key ts) := by
  unfold add
  split_ifs with hany
  · exact h
  · obtain ⟨hnames, hbelow⟩ := distinctAll_iff.1 h
    have hnew : key ∉ ts.map name := fun hmem => by
      obtain ⟨t, ht, hname⟩ := List.mem_map.1 hmem
      exact hany (List.any_eq_true.2 ⟨t, ht, beq_iff_eq.2 hname⟩)
    refine distinctAll_iff.2 ⟨?_, fun t ht => ?_⟩
    · rw [List.map_append, List.map_singleton, ← List.concat_eq_append]
      exact hnames.concat hnew
    · rcases List.mem_append.1 ht with ht | ht
      · exact hbelow t ht
      · rw [List.mem_singleton.1 ht]
        trivial

theorem distinctAll_complete (key : String) (h : DistinctAll ts) : DistinctAll (complete key ts) := by
  refine distinctAll_map (fun t => name_ite t key true t.children) h fun t ht => ?_
  rw [children_ite, ite_self]
  exact (distinctAll_iff.1 h).2 t ht

theorem distinctAll_atPath (hf : ∀ us, DistinctAll us → DistinctAll (f us)) (path : List String)
    (h : DistinctAll ts) : DistinctAll (atPath f path ts) := by
  induction path generalizing ts with
  | nil => exact hf ts h
  | cons key rest ih =>
      have hbelow := (distinctAll_iff.1 h).2
      rw [atPath]
      refine distinctAll_map (fun t => name_ite t key t.completed _) h fun t ht => ?_
      rw [children_ite]
      split_ifs
      · exact ih (hbelow t ht)
      · exact hbelow t ht

/-- The paths after a change further down. -/
theorem cons_mem_pathsOf_atPath {rest : List String} {other : String} :
    other :: q ∈ pathsOf (atPath f (key :: rest) ts) ↔ ∃ t ∈ ts, t.name = other ∧
      (q = [] ∨ q ∈ pathsOf (if t.name = key then atPath f rest t.children else t.children)) := by
  rw [atPath, cons_mem_pathsOf_map fun t => name_ite t key t.completed _]
  simp only [children_ite]

theorem mem_pathsOf_add : p ∈ pathsOf (add key ts) ↔ p ∈ pathsOf ts ∨ p = [key] := by
  unfold add
  split_ifs with hany
  · obtain ⟨t, ht, hname⟩ := List.any_eq_true.1 hany
    refine ⟨.inl, fun h => h.elim id ?_⟩
    rintro rfl
    exact cons_mem_pathsOf_iff.2 ⟨t, ht, beq_iff_eq.1 hname, .inl rfl⟩
  · simp only [mem_pathsOf_iff, List.mem_append, List.mem_singleton, or_and_right, exists_or, exists_eq_left, paths,
      pathsOf, List.map_nil]

theorem mem_pathsOf_complete : p ∈ pathsOf (complete key ts) ↔ p ∈ pathsOf ts := by
  cases p with
  | nil => exact iff_of_false (nil_not_mem_pathsOf _) (nil_not_mem_pathsOf ts)
  | cons other q =>
      rw [complete, cons_mem_pathsOf_map fun t => name_ite t key true t.children, cons_mem_pathsOf_iff]
      simp only [children_ite, ite_self]

/-- A measurement changes no path. -/
theorem mem_pathsOf_atPath_complete : p ∈ pathsOf (atPath (complete key) path ts) ↔ p ∈ pathsOf ts := by
  induction path generalizing ts p with
  | nil => exact mem_pathsOf_complete
  | cons k rest ih =>
      cases p with
      | nil => exact iff_of_false (nil_not_mem_pathsOf _) (nil_not_mem_pathsOf ts)
      | cons other q =>
          rw [cons_mem_pathsOf_atPath, cons_mem_pathsOf_iff]
          refine exists_congr fun t => and_congr_right fun _ => and_congr_right fun _ => or_congr_right ?_
          split_ifs
          · exact ih
          · rfl

/-- A new timer adds its own path only. -/
theorem mem_pathsOf_atPath_add (h : DistinctAll ts) (hpath : hasPath ts path = true) :
    p ∈ pathsOf (atPath (add key) path ts) ↔ p ∈ pathsOf ts ∨ p = path ++ [key] := by
  induction path generalizing ts p with
  | nil => exact mem_pathsOf_add
  | cons k rest ih =>
      obtain ⟨t₀, ht₀, rfl, hrest⟩ := hasPath_cons hpath
      cases p with
      | nil =>
          refine iff_of_false (nil_not_mem_pathsOf _) (not_or.2 ⟨nil_not_mem_pathsOf ts, ?_⟩)
          exact (List.cons_ne_nil _ _).symm
      | cons other q =>
          rw [cons_mem_pathsOf_atPath, cons_mem_pathsOf_iff, List.cons_append, List.cons.injEq]
          -- the names differ, so that the change is below `t₀` and nowhere else
          have hbelow : ∀ t ∈ ts, t.name = t₀.name → (q ∈ pathsOf (atPath (add key) rest t.children) ↔
              q ∈ pathsOf t.children ∨ q = rest ++ [key]) := fun t ht hname => by
            obtain rfl := eq_of_name_eq h ht ht₀ hname
            exact ih ((distinctAll_iff.1 h).2 t ht) hrest
          constructor
          · rintro ⟨t, ht, rfl, hq⟩
            split_ifs at hq with hname
            · rw [hbelow t ht hname, ← or_assoc] at hq
              exact hq.imp (fun hq => ⟨t, ht, rfl, hq⟩) fun hq => ⟨hname, hq⟩
            · exact .inl ⟨t, ht, rfl, hq⟩
          · rintro (⟨t, ht, rfl, hq⟩ | ⟨rfl, hq⟩)
            · refine ⟨t, ht, rfl, hq.imp id fun hq => ?_⟩
              split_ifs with hname
              · exact (hbelow t ht hname).2 (.inl hq)
              · exact hq
            · refine ⟨t₀, ht₀, rfl, .inr ?_⟩
              rw [if_pos rfl]
              exact (hbelow t₀ ht₀ rfl).2 (.inr hq)

end Changes

end Timer

end PolyProjection
