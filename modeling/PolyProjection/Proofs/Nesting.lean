import Mathlib
import PolyProjection.Proofs.Text
import PolyProjection.Proofs.TimerTree

/-! The nesting of timers after any calls. The names that run are a path of the tree, and the paths of the tree are
those that starts have made since the last reset. The lines are those of the paths in ascending order, for as long as no
path has more names than there are depths. -/

namespace PolyProjection

/-- The calls that timers answer. -/
inductive TimerCall where
  | start (key : String)
  | stop
  | reset

namespace Timers

open Timer

/-- The timers after a call. -/
def apply (t : Timers) : TimerCall → Timers
  | .start key => t.start key
  | .stop => t.stop
  | .reset => .empty

/-- The timers after calls, in order. -/
def after (calls : List TimerCall) : Timers :=
  calls.foldl apply .empty

/-- The names that run after calls, outermost first: a start adds one, a stop takes the last one away. -/
def running (calls : List TimerCall) : List String :=
  calls.foldl (fun names call =>
    match call with
    | .start key => names ++ [key]
    | .stop => names.dropLast
    | .reset => []) []

/-- Since the last reset a start has made these the running names. -/
def Reached (calls : List TimerCall) (p : List String) : Prop :=
  ∃ before key later, calls = before ++ .start key :: later ∧ .reset ∉ later ∧ p = running before ++ [key]

section History

variable {calls : List TimerCall} {call : TimerCall} {key : String} {p q : List String} {t : Timers}

theorem after_append (calls : List TimerCall) (call : TimerCall) :
    after (calls ++ [call]) = (after calls).apply call := by
  rw [after, List.foldl_append]
  rfl

theorem running_append_start (calls : List TimerCall) (key : String) :
    running (calls ++ [.start key]) = running calls ++ [key] := by
  rw [running, List.foldl_append]
  rfl

theorem running_append_stop (calls : List TimerCall) : running (calls ++ [.stop]) = (running calls).dropLast := by
  rw [running, List.foldl_append]
  rfl

theorem running_append_reset (calls : List TimerCall) : running (calls ++ [.reset]) = [] := by
  rw [running, List.foldl_append]
  rfl

theorem not_reached_nil : ¬Reached [] p := by
  rintro ⟨before, key, later, hcalls, -⟩
  exact absurd hcalls (by simp)

/-- What was reached before the last call, unless it is a reset, and what the last call reaches. -/
theorem reached_append_iff : Reached (calls ++ [call]) p ↔
    call ≠ .reset ∧ Reached calls p ∨ ∃ key, call = .start key ∧ p = running calls ++ [key] := by
  constructor
  · rintro ⟨before, key, later, hcalls, hreset, rfl⟩
    rcases List.eq_nil_or_concat' later with rfl | ⟨later, last, rfl⟩
    · obtain ⟨rfl, hlast⟩ := List.append_inj' hcalls rfl
      exact .inr ⟨key, List.singleton_inj.1 hlast, rfl⟩
    · rw [← List.cons_append, ← List.append_assoc] at hcalls
      obtain ⟨rfl, hlast⟩ := List.append_inj' hcalls rfl
      obtain rfl := List.singleton_inj.1 hlast
      rw [List.mem_append, not_or, List.mem_singleton] at hreset
      exact .inl ⟨Ne.symm hreset.2, before, key, later, rfl, hreset.1, rfl⟩
  · rintro (⟨hcall, before, key, later, rfl, hreset, rfl⟩ | ⟨key, rfl, rfl⟩)
    · refine ⟨before, key, later ++ [call], by simp, ?_, rfl⟩
      rw [List.mem_append, not_or, List.mem_singleton]
      exact ⟨hreset, Ne.symm hcall⟩
    · exact ⟨calls, key, [], rfl, List.not_mem_nil, rfl⟩

/-- The timers agree with the calls so far: those that run are on a path of the tree, and the paths of the tree are
those that were reached. -/
structure Follows (t : Timers) (calls : List TimerCall) : Prop where
  stack : t.stack = running calls
  distinct : DistinctAll t.roots
  onPath : hasPath t.roots t.stack = true
  mem_paths : ∀ p, p ∈ pathsOf t.roots ↔ Reached calls p

theorem Follows.empty : Follows .empty [] :=
  ⟨rfl, trivial, rfl, fun _ => iff_of_false List.not_mem_nil not_reached_nil⟩

theorem Follows.start (h : Follows t calls) (key : String) : Follows (t.start key) (calls ++ [.start key]) := by
  have hmem : ∀ p, p ∈ pathsOf (t.start key).roots ↔ p ∈ pathsOf t.roots ∨ p = t.stack ++ [key] := fun p => by
    rw [Timers.start, if_pos h.onPath]
    exact mem_pathsOf_atPath_add h.distinct h.onPath
  have hdistinct : DistinctAll (t.start key).roots := distinctAll_atPath (fun _ => distinctAll_add key) _ h.distinct
  refine ⟨by rw [running_append_start, ← h.stack]; rfl, hdistinct, ?_, fun p => ?_⟩
  · exact (hasPath_iff hdistinct).2 (.inr ((hmem _).2 (.inr rfl)))
  · rw [hmem, h.mem_paths, reached_append_iff, h.stack]
    simp

theorem Follows.stop (h : Follows t calls) : Follows t.stop (calls ++ [.stop]) := by
  have hreached : ∀ p, Reached (calls ++ [.stop]) p ↔ Reached calls p := fun p => by
    rw [reached_append_iff]
    simp
  unfold Timers.stop
  split
  · rename_i hnone
    have hstack : t.stack = [] := List.getLast?_eq_none_iff.1 hnone
    refine ⟨?_, h.distinct, h.onPath, fun p => by rw [hreached, h.mem_paths]⟩
    rw [running_append_stop, ← h.stack, hstack, List.dropLast_nil]
  · rename_i key hlast
    have hsplit : t.stack.dropLast ++ [key] = t.stack := List.dropLast_append_getLast? key hlast
    have hdistinct := distinctAll_atPath (fun _ => distinctAll_complete key) t.stack.dropLast h.distinct
    have hmem : ∀ p, p ∈ pathsOf (atPath (complete key) t.stack.dropLast t.roots) ↔ p ∈ pathsOf t.roots := fun p =>
      mem_pathsOf_atPath_complete
    refine ⟨by rw [running_append_stop, h.stack], hdistinct, ?_, fun p => by rw [hmem, hreached, h.mem_paths]⟩
    rw [hasPath_iff hdistinct, hmem, ← hasPath_iff h.distinct]
    exact hasPath_of_append (hsplit.symm ▸ h.onPath)

theorem Follows.reset (calls : List TimerCall) : Follows .empty (calls ++ [.reset]) := by
  refine ⟨(running_append_reset calls).symm, trivial, rfl, fun p => iff_of_false List.not_mem_nil ?_⟩
  rw [reached_append_iff]
  simp

/-- The timers agree with every history of calls. -/
theorem follows_after (calls : List TimerCall) : Follows (after calls) calls := by
  induction calls using List.reverseRecOn with
  | nil => exact Follows.empty
  | append_singleton calls call ih =>
      rw [after_append]
      cases call with
      | start key => exact ih.start key
      | stop => exact ih.stop
      | reset => exact Follows.reset calls

end History

section Lines

variable {ts : List Timer} {t : Timer} {depth : ℕ} {p q : List String}

/-- The line of a path below `depth` timers: its depth and its last name. -/
def lineAt (depth : ℕ) (p : List String) : ℕ × String :=
  (depth + p.length - 1, p.getLastD "")

theorem lineAt_cons (depth : ℕ) (name : String) (hq : q ≠ []) : lineAt depth (name :: q) = lineAt (depth + 1) q := by
  obtain ⟨key, rest, rfl⟩ := List.exists_cons_of_ne_nil hq
  refine Prod.ext ?_ rfl
  simp only [lineAt, List.length_cons]
  omega

mutual

theorem linesOf_error (depth : ℕ) (t : Timer) (h : maxDepth < depth + t.levels) :
    linesOf depth t = .error .outOfRange := by
  cases t with
  | node name completed children =>
      rw [levels] at h
      rw [linesOf]
      by_cases hdepth : depth < maxDepth
      · rw [require_of_true (decide_eq_true hdepth), ok_bind, groupsOf_error (depth + 1) children hdepth (by omega)]
        rfl
      · rw [require, if_neg (by simpa using hdepth)]
        rfl

theorem groupsOf_error (depth : ℕ) (ts : List Timer) (hdepth : depth ≤ maxDepth)
    (h : maxDepth < depth + levelsOf ts) : groupsOf depth ts = .error .outOfRange := by
  cases ts with
  | nil => exact absurd h (not_lt.2 hdepth)
  | cons t ts =>
      rw [levelsOf] at h
      rw [groupsOf]
      by_cases hfirst : depth + t.levels ≤ maxDepth
      · obtain ⟨ls, hls⟩ := linesOf_ok depth t hfirst
        rw [hls, ok_bind, groupsOf_error depth ts hdepth (by omega)]
        rfl
      · rw [linesOf_error depth t (not_le.1 hfirst)]
        rfl

end

/-- Timers that are nested too deep cannot be listed. -/
theorem lines_error {t : Timers} (h : maxDepth < levelsOf t.roots) : t.lines = .error .outOfRange := by
  rw [lines, groupsOf_error 0 t.roots (Nat.zero_le _) (by omega)]
  rfl

/-- What the groups hold, in the order of their names. -/
def inOrder {α : Type} (groups : List (String × List α)) : List α :=
  (groups.mergeSort fun a b => decide (a.1 ≤ b.1)).flatMap (·.2)

theorem inOrder_map {α β : Type} (f : α → β) (groups : List (String × List α)) :
    inOrder (groups.map fun g => (g.1, g.2.map f)) = (inOrder groups).map f := by
  have hsort := List.map_mergeSort (f := fun g : String × List α => (g.1, g.2.map f)) (l := groups)
    (r := fun a b => decide (a.1 ≤ b.1)) (s := fun a b => decide (a.1 ≤ b.1)) fun a _ b _ => rfl
  rw [inOrder, inOrder, ← hsort, List.flatMap_map, List.map_flatMap]

/-- Paths in ascending order, in a group for each of the timers. -/
structure Grouped (ts : List Timer) (gs : List (String × List (List String))) : Prop where
  names : gs.map Prod.fst = ts.map name
  ascending : ∀ g ∈ gs, g.2.Pairwise (· < ·)
  head : ∀ g ∈ gs, ∀ p ∈ g.2, ∃ q, p = g.1 :: q
  mem : ∀ p, (∃ g ∈ gs, p ∈ g.2) ↔ p ∈ pathsOf ts

/-- The groups in the order of their names are the paths in ascending order. -/
theorem Grouped.sorted {gs : List (String × List (List String))} (h : Grouped ts gs) (hd : DistinctAll ts) :
    (inOrder gs).Pairwise (· < ·) ∧ ∀ p, p ∈ inOrder gs ↔ p ∈ pathsOf ts := by
  unfold inOrder
  have hperm := List.mergeSort_perm gs fun a b => decide (a.1 ≤ b.1)
  have hsorted : (gs.mergeSort fun a b => decide (a.1 ≤ b.1)).Pairwise fun a b => decide (a.1 ≤ b.1) = true := by
    refine List.pairwise_mergeSort (fun a b c hab hbc => ?_) (fun a b => ?_) gs
    · exact decide_eq_true (le_trans (of_decide_eq_true hab) (of_decide_eq_true hbc))
    · simpa using le_total a.1 b.1
  have hnodup : (gs.mergeSort fun a b => decide (a.1 ≤ b.1)).Pairwise fun a b => a.1 ≠ b.1 := by
    rw [← List.pairwise_map (f := Prod.fst)]
    refine (hperm.map Prod.fst).nodup_iff.2 ?_
    rw [h.names]
    exact (distinctAll_iff.1 hd).1
  refine ⟨?_, fun p => ?_⟩
  · rw [List.pairwise_flatMap]
    refine ⟨fun g hg => h.ascending g (hperm.mem_iff.1 hg), ?_⟩
    -- paths of two groups differ in their first name
    refine List.Pairwise.imp_of_mem ?_ (hsorted.and hnodup)
    rintro a b ha hb ⟨hle, hne⟩ p hp q hq
    obtain ⟨p, rfl⟩ := h.head a (hperm.mem_iff.1 ha) p hp
    obtain ⟨q, rfl⟩ := h.head b (hperm.mem_iff.1 hb) q hq
    exact List.cons_lt_cons_iff.2 (.inl (lt_of_le_of_ne (of_decide_eq_true hle) hne))
  · rw [List.mem_flatMap, ← h.mem]
    simp only [hperm.mem_iff]

mutual

theorem exists_paths_of_linesOf (depth : ℕ) (t : Timer) (hd : t.Distinct) {ls : List (ℕ × String)}
    (h : linesOf depth t = .ok ls) :
    ∃ ps : List (List String), ls = ps.map (lineAt depth) ∧ ps.Pairwise (· < ·) ∧ ∀ p, p ∈ ps ↔ p ∈ t.paths := by
  cases t with
  | node name completed children =>
      simp only [linesOf, bind_eq_ok_iff, pure_eq_ok_iff] at h
      obtain ⟨-, -, groups, hgroups, rfl⟩ := h
      obtain ⟨gs, rfl, hgs⟩ := exists_paths_of_groupsOf (depth + 1) children hd hgroups
      obtain ⟨hasc, hmem⟩ := hgs.sorted hd
      have hne : ∀ p ∈ inOrder gs, p ≠ [] := fun p hp h => nil_not_mem_pathsOf children (h ▸ (hmem p).1 hp)
      refine ⟨[name] :: (inOrder gs).map (name :: ·), ?_, ?_, fun p => ?_⟩
      · rw [← inOrder, inOrder_map, List.map_cons, List.map_map]
        exact congrArg _ (List.map_congr_left fun p hp => (lineAt_cons depth name (hne p hp)).symm)
      · refine List.pairwise_cons.2 ⟨fun p hp => ?_, List.pairwise_map.2 (hasc.imp fun h => ?_)⟩
        · obtain ⟨q, hq, rfl⟩ := List.mem_map.1 hp
          obtain ⟨key, rest, rfl⟩ := List.exists_cons_of_ne_nil (hne q hq)
          exact List.cons_lt_cons_iff.2 (.inr ⟨rfl, List.nil_lt_cons _ _⟩)
        · exact List.cons_lt_cons_iff.2 (.inr ⟨rfl, h⟩)
      · simp only [paths, List.mem_cons, List.mem_map, hmem]

theorem exists_paths_of_groupsOf (depth : ℕ) (ts : List Timer) (hd : DistinctAll ts)
    {groups : List (String × List (ℕ × String))} (h : groupsOf depth ts = .ok groups) :
    ∃ gs : List (String × List (List String)), groups = gs.map (fun g => (g.1, g.2.map (lineAt depth))) ∧
      Grouped ts gs := by
  cases ts with
  | nil =>
      simp only [groupsOf, pure_eq_ok_iff] at h
      subst h
      exact ⟨[], rfl, rfl, by simp, by simp, by simp [pathsOf]⟩
  | cons t ts =>
      simp only [groupsOf, bind_eq_ok_iff, pure_eq_ok_iff] at h
      obtain ⟨lines, hlines, rest, hrest, rfl⟩ := h
      obtain ⟨hfirst, -, hothers⟩ := hd
      obtain ⟨ps, rfl, hasc, hmem⟩ := exists_paths_of_linesOf depth t hfirst hlines
      obtain ⟨gs, rfl, hgs⟩ := exists_paths_of_groupsOf depth ts hothers hrest
      refine ⟨(t.name, ps) :: gs, rfl, ?_, ?_, ?_, fun p => ?_⟩
      · rw [List.map_cons, List.map_cons, hgs.names]
      · exact List.forall_mem_cons.2 ⟨hasc, hgs.ascending⟩
      · refine List.forall_mem_cons.2 ⟨fun p hp => ?_, hgs.head⟩
        cases p with
        | nil => exact absurd ((hmem []).1 hp) (nil_not_mem_paths t)
        | cons key q => exact ⟨q, by rw [(cons_mem_paths_iff.1 ((hmem _).1 hp)).1]⟩
      · rw [List.exists_mem_cons_iff, hgs.mem, hmem, pathsOf, List.mem_append]

end

/-- The lines are those of the paths, in ascending order. -/
theorem exists_paths_of_lines {t : Timers} (hd : DistinctAll t.roots) {ls : List (ℕ × String)} (h : t.lines = .ok ls) :
    ∃ ps : List (List String), ls = ps.map (lineAt 0) ∧ ps.Pairwise (· < ·) ∧ ∀ p, p ∈ ps ↔ p ∈ pathsOf t.roots := by
  simp only [lines, bind_eq_ok_iff, pure_eq_ok_iff] at h
  obtain ⟨groups, hgroups, rfl⟩ := h
  obtain ⟨gs, rfl, hgs⟩ := exists_paths_of_groupsOf 0 t.roots hd hgroups
  obtain ⟨hasc, hmem⟩ := hgs.sorted hd
  exact ⟨inOrder gs, inOrder_map (lineAt 0) gs, hasc, hmem⟩

end Lines

section Listing

variable {calls : List TimerCall} {ps : List (List String)} {p q : List String}

/-- No path that was reached is longer than `n` just if there are at most `n` levels. -/
theorem reached_length_le_iff {n : ℕ} :
    (∀ p, Reached calls p → p.length ≤ n) ↔ levelsOf (after calls).roots ≤ n := by
  rw [levelsOf_le_iff_paths]
  exact forall_congr' fun p => imp_congr_left ((follows_after calls).mem_paths p).symm

/-- The paths whose lines are listed after calls. Each path that was reached is there once; the line of a timer is after
that of the timer around it, and those of the timers right below one are in the order of the bytes of their names. The
whole is in the order of the paths, so that what is below a timer follows it at once. -/
structure Lists (ps : List (List String)) (calls : List TimerCall) : Prop where
  nodup : ps.Nodup
  mem_iff : ∀ p, p ∈ ps ↔ Reached calls p
  below : ∀ q key, q ≠ [] → q ++ [key] ∈ ps → List.Sublist [q, q ++ [key]] ps
  ascending : ∀ q key key', List.Sublist [q ++ [key], q ++ [key']] ps → Text.bytes key < Text.bytes key'
  ordered : ps.Pairwise fun p q => p.map Text.bytes < q.map Text.bytes

/-- The line of a path: four blanks for each timer around the last one, and its name. -/
def pathLine (p : List String) : String :=
  String.ofList (List.replicate (4 * (p.length - 1)) ' ') ++ p.getLastD ""

theorem indented_lineAt (p : List String) : indented (lineAt 0 p) = pathLine p := by
  rw [indented, lineAt, pathLine, Nat.zero_add]

theorem pair_sublist (hps : ps.Pairwise (· < ·)) (hp : p ∈ ps) (hq : q ∈ ps) (h : p < q) : List.Sublist [p, q] ps := by
  refine List.sublist_of_subperm_of_pairwise (r := (· < ·)) ?_ (List.pairwise_pair.2 h) hps
  exact List.subperm_of_subset (by simpa using ne_of_lt h) (by simp [hp, hq])

/-- With a path the paths of the timers around it were reached. -/
theorem reached_of_append {key : String} (hq : q ≠ []) (h : Reached calls (q ++ [key])) : Reached calls q := by
  have hf := follows_after calls
  rw [← hf.mem_paths] at h ⊢
  have hpath := hasPath_of_append ((hasPath_iff hf.distinct).2 (.inr h))
  exact ((hasPath_iff hf.distinct).1 hpath).resolve_left hq

/-- An ascending list of the paths that were reached lists them. -/
theorem Lists.of_ascending (hps : ps.Pairwise (· < ·)) (hmem : ∀ p, p ∈ ps ↔ Reached calls p) : Lists ps calls where
  nodup := hps.imp fun h => ne_of_lt h
  mem_iff := hmem
  below q key hq hp := by
    have hlt : q ++ [] < q ++ [key] := append_lt_append_iff.2 (List.nil_lt_cons _ _)
    rw [List.append_nil] at hlt
    exact pair_sublist hps ((hmem q).2 (reached_of_append hq ((hmem _).1 hp))) hp hlt
  ascending q key key' h := by
    have hlt := append_lt_append_iff.1 (List.pairwise_pair.1 (hps.sublist h))
    have hkey : key < key' := by simpa only [List.cons_lt_cons_iff, List.lt_irrefl, and_false, or_false] using hlt
    exact Text.bytes_lt_bytes hkey
  ordered := hps.imp Text.map_bytes_lt_map_bytes

/-- After any calls the names that run are those of a path of the tree. If no path that was reached has more names
than there are depths, each of them has its line, indented by four blanks for each timer around it, after the line of
the timer around it and in the order of the bytes of the names; else the timers cannot be listed. -/
theorem lists_nesting (calls : List TimerCall) :
    (after calls).stack = running calls ∧ hasPath (after calls).roots (running calls) = true ∧
      ((∀ p, Reached calls p → p.length ≤ maxDepth) → ∃ ls ps, (after calls).lines = .ok ls ∧ Lists ps calls ∧
        ls.map indented = ps.map pathLine) ∧
      ((∃ p, Reached calls p ∧ maxDepth < p.length) → (after calls).lines = .error .outOfRange) := by
  have hf := follows_after calls
  refine ⟨hf.stack, hf.stack ▸ hf.onPath, fun h => ?_, ?_⟩
  · obtain ⟨ls, hls⟩ := lines_ok (reached_length_le_iff.1 h)
    obtain ⟨ps, rfl, hasc, hmem⟩ := exists_paths_of_lines hf.distinct hls
    refine ⟨_, ps, hls, .of_ascending hasc fun p => (hmem p).trans (hf.mem_paths p), ?_⟩
    rw [List.map_map]
    exact List.map_congr_left fun p _ => indented_lineAt p
  · rintro ⟨p, hp, hlong⟩
    refine lines_error (not_le.1 fun hle => ?_)
    exact absurd (reached_length_le_iff.2 hle p hp) (not_le.2 hlong)

/-- A timer below another one, and another one of the same name beside it. -/
def nested : List TimerCall :=
  [.start "outer", .start "inner", .stop, .stop, .start "inner", .stop, .stop]

theorem lists_nesting_nested : (∀ p, Reached nested p → p.length ≤ maxDepth) ∧
    ∃ ls ps, (after nested).lines = .ok ls ∧ Lists ps nested ∧ ls.map indented = ps.map pathLine := by
  have hshort : ∀ p, Reached nested p → p.length ≤ maxDepth := reached_length_le_iff.2 (by decide +kernel)
  exact ⟨hshort, (lists_nesting nested).2.2.1 hshort⟩

theorem running_replicate (n : ℕ) (key : String) : running (List.replicate n (.start key)) = List.replicate n key := by
  induction n with
  | zero => rfl
  | succ n ih => rw [List.replicate_succ', running_append_start, ih, List.replicate_succ']

theorem exists_not_listed : (after (List.replicate 256 (.start "a"))).lines = .error .outOfRange := by
  refine lines_error (not_le.1 fun hle => ?_)
  have hreached : Reached (List.replicate 256 (.start "a")) (List.replicate 256 "a") := by
    refine ⟨List.replicate 255 (.start "a"), "a", [], by rw [← List.replicate_succ'], List.not_mem_nil, ?_⟩
    rw [running_replicate, List.replicate_succ']
  have hlength := reached_length_le_iff.2 hle _ hreached
  rw [List.length_replicate] at hlength
  exact absurd hlength (by decide)

end Listing

end Timers

end PolyProjection
