import Mathlib
import PolyProjection.Json.Printer
import PolyProjection.Json.Reader

/-! Texts that spell a value. The reader goes over a compact text inside a larger one as it does over the text
alone, as long as the text after it begins with a comma or a closing bracket, which no number goes on with. -/

namespace PolyProjection.Json

/-- The text is at its end, or goes on with what ends an item. -/
def Ends (cs : List Char) : Prop :=
  ∀ c ∈ cs.head?, c = ',' ∨ c = ']' ∨ c = '}'

/-- Wherever the text stands, the reader takes it for the value `v` and goes on behind it, up to blanks. -/
def Spells (text : List Char) (v : Json) : Prop :=
  ∀ steps rest, text.length ≤ steps → Ends rest →
    ∃ after, valueWithin steps (text ++ rest) = (v, some after) ∧ skipBlanks after = skipBlanks rest

variable {v w : Json} {text cs rest after : List Char} {steps : Nat}

theorem ends_nil : Ends [] := by
  simp [Ends]

theorem ends_cons {c : Char} (h : c = ',' ∨ c = ']' ∨ c = '}') : Ends (c :: rest) := by
  simpa [Ends] using h

theorem Ends.not_digit (h : Ends rest) : ∀ c ∈ rest.head?, c.isDigit = false := by
  intro c hc
  obtain rfl | rfl | rfl := h c hc <;> decide

/-! ### Blanks -/

theorem skipBlanks_idem (cs : List Char) : skipBlanks (skipBlanks cs) = skipBlanks cs :=
  List.dropWhile_idempotent _ cs

theorem skipBlanks_append (h : skipBlanks cs ≠ []) : skipBlanks (cs ++ rest) = skipBlanks cs ++ rest := by
  rw [skipBlanks, List.dropWhile_append, if_neg (by simpa [skipBlanks] using h), skipBlanks]

/-- Blanks before a value do not matter. -/
theorem valueWithin_skipBlanks (steps : Nat) (cs : List Char) :
    valueWithin steps (skipBlanks cs) = valueWithin steps cs := by
  cases steps with
  | zero => rfl
  | succ steps => rw [valueWithin, valueWithin, skipBlanks_idem]

/-- A value begins with a character that neither separates nor closes. -/
theorem exists_head_of_valueWithin (h : valueWithin steps cs = (v, some after)) :
    ∃ c tail, skipBlanks cs = c :: tail ∧ c ≠ ',' ∧ c ≠ ']' ∧ c ≠ '}' := by
  cases steps with
  | zero => simp [valueWithin, brokenFor, brokenHere] at h
  | succ steps =>
      rw [valueWithin] at h
      cases hcs : skipBlanks cs with
      | nil => simp [hcs, brokenFor, brokenHere] at h
      | cons c tail =>
          refine ⟨c, tail, rfl, ?_, ?_, ?_⟩
          all_goals
            rintro rfl
            simp [hcs, brokenFor, brokenHere, Char.isDigit] at h

theorem Spells.exists_head (h : Spells text v) (hrest : Ends rest) :
    ∃ c tail, skipBlanks (text ++ rest) = c :: tail ∧ c ≠ ',' ∧ c ≠ ']' ∧ c ≠ '}' := by
  obtain ⟨after, hvalue, -⟩ := h text.length rest le_rfl hrest
  exact exists_head_of_valueWithin hvalue

theorem Spells.length_pos (h : Spells text v) : 0 < text.length := by
  rw [List.length_pos_iff]
  rintro rfl
  obtain ⟨after, hvalue, -⟩ := h 0 [] le_rfl ends_nil
  simp [valueWithin, brokenFor, brokenHere] at hvalue

/-! ### Numbers -/

theorem takeWhile_append_of_head {p : Char → Bool} (h : ∀ c ∈ rest.head?, p c = false) (cs : List Char) :
    (cs ++ rest).takeWhile p = cs.takeWhile p ∧ (cs ++ rest).dropWhile p = cs.dropWhile p ++ rest := by
  induction cs with
  | nil => cases rest <;> simp_all
  | cons c cs ih =>
      cases hc : p c with
      | false => simp [hc]
      | true => simpa [hc] using ih

theorem missingDigits_ne_number {d : Decimal} {whole : Bool} :
    missingDigits cs ≠ (.number d whole, some after) := by
  rw [missingDigits]
  split_ifs
  all_goals simp [brokenFor, brokenHere]

/-- A sign is no part of the digits. -/
theorem exponentPart_unsigned {negative : Bool} {coefficient places : Nat} {c : Char} (hplus : c ≠ '+')
    (hminus : c ≠ '-') :
    exponentPart negative coefficient places (c :: cs) = exponentPart negative coefficient places ('+' :: c :: cs) := by
  unfold exponentPart
  split
  all_goals simp_all

theorem exponentPart_append {negative : Bool} {coefficient places : Nat} {d : Decimal} {whole : Bool}
    (h : exponentPart negative coefficient places cs = (.number d whole, some after)) (hrest : Ends rest) :
    exponentPart negative coefficient places (cs ++ rest) = (.number d whole, some (after ++ rest)) := by
  have hsplit := takeWhile_append_of_head hrest.not_digit
  have hsigned : ∀ c tail, c = '+' ∨ c = '-' →
      exponentPart negative coefficient places (c :: tail) = (.number d whole, some after) →
      exponentPart negative coefficient places (c :: (tail ++ rest)) = (.number d whole, some (after ++ rest)) := by
    rintro c tail (rfl | rfl) h
    all_goals
      simp only [exponentPart, hsplit] at h ⊢
      split at h
      · exact absurd h missingDigits_ne_number
      · rename_i hdigits
        obtain ⟨hvalue, hafter⟩ := Prod.mk.inj h
        rw [if_neg hdigits, ← hvalue, ← Option.some.inj hafter]
  cases cs with
  | nil => exact absurd (show missingDigits [] = _ from h) missingDigits_ne_number
  | cons c cs =>
      by_cases hc : c = '+' ∨ c = '-'
      · exact hsigned c cs hc h
      · rw [not_or] at hc
        rw [exponentPart_unsigned hc.1 hc.2] at h
        rw [List.cons_append, exponentPart_unsigned hc.1 hc.2]
        exact hsigned '+' (c :: cs) (.inl rfl) h

theorem Ends.not_mark (h : Ends rest) : ∀ c ∈ rest.head?, c ≠ '.' ∧ c ≠ 'e' ∧ c ≠ 'E' := by
  intro c hc
  obtain rfl | rfl | rfl := h c hc <;> decide

theorem forall_head_append {p : Char → Prop} (hcs : ∀ c ∈ cs.head?, p c) (hrest : ∀ c ∈ rest.head?, p c) :
    ∀ c ∈ (cs ++ rest).head?, p c := by
  cases cs with
  | nil => exact hrest
  | cons c cs => exact hcs

/-- A text goes on with an exponent, or not. -/
theorem exponent_or (cs : List Char) :
    (∃ tail, cs = 'e' :: tail ∨ cs = 'E' :: tail) ∨ ∀ c ∈ cs.head?, c ≠ 'e' ∧ c ≠ 'E' := by
  cases cs with
  | nil => simp
  | cons c cs =>
      by_cases hc : c = 'e' ∨ c = 'E'
      · exact .inl ⟨cs, hc.imp (by rw [·]) (by rw [·])⟩
      · exact .inr (by simpa [not_or] using hc)

/-- Digits with neither fraction nor exponent behind them are a whole number. -/
theorem fractionPart_of_head {negative : Bool} {digits : List Char}
    (h : ∀ c ∈ cs.head?, c ≠ '.' ∧ c ≠ 'e' ∧ c ≠ 'E') :
    fractionPart negative digits cs = (.number ⟨negative, digitsValue digits, 0⟩ true, some cs) := by
  unfold fractionPart
  split
  all_goals simp_all

theorem fractionPart_point_of_head {negative : Bool} {digits : List Char}
    (hdigits : (cs.takeWhile Char.isDigit).isEmpty = false)
    (h : ∀ c ∈ (cs.dropWhile Char.isDigit).head?, c ≠ 'e' ∧ c ≠ 'E') :
    fractionPart negative digits ('.' :: cs) =
      (.number ⟨negative, digitsValue (digits ++ cs.takeWhile Char.isDigit),
        -((cs.takeWhile Char.isDigit).length : Int)⟩ false, some (cs.dropWhile Char.isDigit)) := by
  simp only [fractionPart, hdigits, Bool.false_eq_true, if_false]
  split
  · simp_all
  · simp_all
  · rfl

theorem fractionPart_point_append {negative whole : Bool} {digits : List Char} {d : Decimal}
    (h : fractionPart negative digits ('.' :: cs) = (.number d whole, some after)) (hrest : Ends rest) :
    fractionPart negative digits ('.' :: (cs ++ rest)) = (.number d whole, some (after ++ rest)) := by
  obtain ⟨htake, hdrop⟩ := takeWhile_append_of_head hrest.not_digit cs
  cases hdigits : (cs.takeWhile Char.isDigit).isEmpty with
  | true =>
      simp only [fractionPart, hdigits] at h
      exact absurd h missingDigits_ne_number
  | false =>
      obtain ⟨tail, htail | htail⟩ | hhead := exponent_or (cs.dropWhile Char.isDigit)
      · simp only [fractionPart, htake, hdrop, hdigits, htail, List.cons_append] at h ⊢
        exact exponentPart_append h hrest
      · simp only [fractionPart, htake, hdrop, hdigits, htail, List.cons_append] at h ⊢
        exact exponentPart_append h hrest
      · rw [fractionPart_point_of_head hdigits hhead] at h
        obtain ⟨hvalue, hafter⟩ := Prod.mk.inj h
        rw [fractionPart_point_of_head (by rwa [htake]), htake, hdrop, hvalue, Option.some.inj hafter]
        rw [hdrop]
        exact forall_head_append hhead fun c hc => (hrest.not_mark c hc).2

theorem fractionPart_append {negative whole : Bool} {digits : List Char} {d : Decimal}
    (h : fractionPart negative digits cs = (.number d whole, some after)) (hrest : Ends rest) :
    fractionPart negative digits (cs ++ rest) = (.number d whole, some (after ++ rest)) := by
  by_cases hpoint : ∃ tail, cs = '.' :: tail
  · obtain ⟨tail, rfl⟩ := hpoint
    exact fractionPart_point_append h hrest
  · obtain ⟨tail, rfl | rfl⟩ | hhead := exponent_or cs
    · exact exponentPart_append h hrest
    · exact exponentPart_append h hrest
    · have hhead : ∀ c ∈ cs.head?, c ≠ '.' ∧ c ≠ 'e' ∧ c ≠ 'E' := by
        intro c hc
        refine ⟨?_, hhead c hc⟩
        rintro rfl
        exact hpoint (List.head?_eq_some_iff.1 hc)
      rw [fractionPart_of_head hhead] at h
      obtain ⟨hvalue, hafter⟩ := Prod.mk.inj h
      rw [fractionPart_of_head (forall_head_append hhead hrest.not_mark), hvalue, Option.some.inj hafter]

theorem numberWord_append {negative whole : Bool} {d : Decimal}
    (h : numberWord negative cs = (.number d whole, some after)) (hrest : Ends rest) :
    numberWord negative (cs ++ rest) = (.number d whole, some (after ++ rest)) := by
  obtain ⟨htake, hdrop⟩ := takeWhile_append_of_head hrest.not_digit cs
  simp only [numberWord, htake, hdrop] at h ⊢
  split at h
  · exact absurd h missingDigits_ne_number
  · rename_i hdigits
    split at h
    · simp [brokenFor, brokenHere] at h
    · rename_i hzero
      rw [if_neg hdigits, if_neg hzero]
      exact fractionPart_append h hrest

theorem fixedWord_ne_number {value : Json} {letters : List Char} {d : Decimal} {whole : Bool}
    (hvalue : ∀ d whole, value ≠ .number d whole) :
    fixedWord value letters cs ≠ (.number d whole, some after) := by
  induction letters generalizing cs with
  | nil =>
      intro h
      exact hvalue d whole (Prod.mk.inj h).1
  | cons letter letters ih =>
      cases cs with
      | nil => simp [fixedWord, brokenFor, brokenHere]
      | cons c cs =>
          rw [fixedWord]
          split
          · exact ih
          · simp [brokenFor, brokenHere]

theorem valueWithin_of_digit {c : Char} {tail : List Char} (hcs : skipBlanks cs = c :: tail) (hc : c.isDigit = true) :
    valueWithin (steps + 1) cs = numberWord false (c :: tail) := by
  rw [valueWithin, hcs]
  split
  all_goals simp_all [Char.isDigit]

theorem valueWithin_of_minus {tail : List Char} (hcs : skipBlanks cs = '-' :: tail) :
    valueWithin (steps + 1) cs = numberWord true tail := by
  simp only [valueWithin, hcs]

theorem exists_numberWord {d : Decimal} {whole : Bool} (h : valueWithin steps cs = (.number d whole, some after)) :
    (∃ tail, skipBlanks cs = '-' :: tail ∧ numberWord true tail = (.number d whole, some after)) ∨
      ∃ c tail, skipBlanks cs = c :: tail ∧ c.isDigit = true ∧
        numberWord false (c :: tail) = (.number d whole, some after) := by
  cases steps with
  | zero => simp [valueWithin, brokenFor, brokenHere] at h
  | succ steps =>
      rw [valueWithin] at h
      split at h
      · simp [brokenFor, brokenHere] at h
      · exact absurd h (fixedWord_ne_number (by simp))
      · exact absurd h (fixedWord_ne_number (by simp))
      · exact absurd h (fixedWord_ne_number (by simp))
      · rename_i tail hcs
        exact .inl ⟨tail, hcs, h⟩
      · split at h
        all_goals simp at h
      · simp at h
      · simp at h
      · rename_i c tail _ _ _ _ _ _ _ hcs
        split at h
        · rename_i hc
          exact .inr ⟨c, tail, hcs, hc, h⟩
        · simp [brokenFor, brokenHere] at h

/-- A number that is the whole text is the same number before what ends an item. -/
theorem spells_of_number {d : Decimal} {whole : Bool} {n : Nat}
    (h : valueWithin n text = (.number d whole, some after)) (hafter : skipBlanks after = []) :
    Spells text (.number d whole) := by
  intro steps rest hsteps hrest
  have hblanks : skipBlanks (after ++ rest) = skipBlanks rest := by
    have hall : ∀ c ∈ after, isBlank c = true := List.dropWhile_eq_nil_iff.1 hafter
    exact List.dropWhile_append_of_pos hall
  refine ⟨after ++ rest, ?_, hblanks⟩
  cases steps with
  | zero =>
      rw [List.eq_nil_of_length_eq_zero (Nat.le_zero.1 hsteps)] at h
      obtain ⟨_, hnil, -⟩ | ⟨_, _, hnil, -⟩ := exists_numberWord h
      all_goals simp [skipBlanks] at hnil
  | succ steps =>
      have hcs : ∀ {c tail}, skipBlanks text = c :: tail → skipBlanks (text ++ rest) = c :: (tail ++ rest) := by
        intro c tail htext
        rw [skipBlanks_append (htext.trans_ne (List.cons_ne_nil _ _)), htext, List.cons_append]
      obtain ⟨tail, htext, hword⟩ | ⟨c, tail, htext, hc, hword⟩ := exists_numberWord h
      · rw [valueWithin_of_minus (hcs htext)]
        exact numberWord_append hword hrest
      · rw [valueWithin_of_digit (hcs htext) hc]
        exact numberWord_append hword hrest

/-! ### Counts and truth values -/

theorem not_isBlank_of_digit {c : Char} (hc : c.isDigit = true) : isBlank c = false := by
  by_contra hblank
  simp only [isBlank, Bool.not_eq_false, Bool.or_eq_true, beq_iff_eq] at hblank
  obtain ((rfl | rfl) | rfl) | rfl := hblank
  all_goals exact absurd hc (by decide)

theorem digitsValue_toDigits (n : Nat) : digitsValue (Nat.toDigits 10 n) = n := by
  have h := Nat.ofDigitChars_toDigits (n := n) (by decide : 1 < 10) le_rfl
  exact h

/-- Only zero is written with a leading zero. -/
theorem toDigits_head_eq_zero {n : Nat} (h : (Nat.toDigits 10 n).head? = some '0') : n = 0 := by
  induction n using Nat.strong_induction_on with
  | _ n ih =>
      rw [Nat.toDigits_eq_if (by decide)] at h
      split at h
      · rename_i hn
        interval_cases n
        all_goals simp_all [Nat.digitChar]
      · rename_i hn
        have hdiv : n / 10 = 0 := by
          apply ih (n / 10) (by omega)
          rw [List.head?_append_of_ne_nil _ Nat.toDigits_ne_nil] at h
          exact h
        omega

theorem numberWord_toDigits (n : Nat) :
    numberWord false (Nat.toDigits 10 n) = (.number ⟨false, n, 0⟩ true, some []) := by
  have hdigits : ∀ c ∈ Nat.toDigits 10 n, c.isDigit = true :=
    fun c hc => Nat.isDigit_of_mem_toDigits (by decide) le_rfl hc
  have hzero : ¬((Nat.toDigits 10 n).head? = some '0' ∧ 1 < (Nat.toDigits 10 n).length) := by
    rintro ⟨hhead, hlength⟩
    rw [toDigits_head_eq_zero hhead] at hlength
    exact absurd hlength (by decide)
  have hempty : ¬(Nat.toDigits 10 n).isEmpty = true := by
    simp [Nat.toDigits_ne_nil]
  rw [numberWord, List.takeWhile_eq_self_iff.2 hdigits, List.dropWhile_eq_nil_iff.2 hdigits]
  rw [if_neg hempty, if_neg hzero, fractionPart_of_head (by simp), digitsValue_toDigits]

theorem spells_ofNat (n : Nat) : Spells (ofNat n).toList (.number ⟨false, n, 0⟩ true) := by
  have hvalue : valueWithin 1 (Nat.toDigits 10 n) = (.number ⟨false, n, 0⟩ true, some []) := by
    cases hdigits : Nat.toDigits 10 n with
    | nil => exact absurd hdigits Nat.toDigits_ne_nil
    | cons c tail =>
        have hc : c.isDigit = true := by
          apply @Nat.isDigit_of_mem_toDigits 10 n c (by decide) le_rfl
          rw [hdigits]
          exact List.mem_cons_self
        have hhead : skipBlanks (c :: tail) = c :: tail := by
          simp [skipBlanks, not_isBlank_of_digit hc]
        rw [valueWithin_of_digit hhead hc, ← hdigits]
        exact numberWord_toDigits n
  rw [ofNat, Nat.toList_repr]
  exact spells_of_number hvalue rfl

theorem spells_ofBool (b : Bool) : Spells (ofBool b).toList (.bool b) := by
  intro steps rest hsteps hrest
  refine ⟨rest, ?_, rfl⟩
  cases b
  all_goals
    obtain _ | steps := steps
    · simp [ofBool] at hsteps
    · rfl

/-! ### Arrays -/

/-- An item of an array or object; all but the first one have a comma before them. -/
def separated (first : Bool) (text : List Char) : List Char :=
  if first then text else ',' :: text

/-- The items behind the first one. -/
def laterItems (texts : List (List Char)) : List Char :=
  texts.flatMap (separated false)

theorem laterItems_cons_append (text : List Char) (texts : List (List Char)) (rest : List Char) :
    laterItems (text :: texts) ++ rest = separated false (text ++ (laterItems texts ++ rest)) := by
  simp [laterItems, separated]

theorem length_laterItems_cons (text : List Char) (texts : List (List Char)) :
    (laterItems (text :: texts)).length = text.length + (laterItems texts).length + 1 := by
  simp only [laterItems, separated, List.flatMap_cons, List.length_append, Bool.false_eq_true, if_false,
    List.length_cons]
  omega

theorem intercalate_cons_eq (text : List Char) (texts : List (List Char)) :
    [','].intercalate (text :: texts) = text ++ laterItems texts := by
  induction texts generalizing text with
  | nil => simp [laterItems]
  | cons next texts ih =>
      rw [List.intercalate_cons_cons, ih]
      simp [laterItems, separated]

theorem intercalate_cons_append (text : List Char) (texts : List (List Char)) (rest : List Char) :
    [','].intercalate (text :: texts) ++ rest = separated true (text ++ (laterItems texts ++ rest)) := by
  rw [intercalate_cons_eq, List.append_assoc, separated, if_pos rfl]

theorem ends_laterItems (texts : List (List Char)) {close : Char} (h : close = ']' ∨ close = '}') :
    Ends (laterItems texts ++ close :: rest) := by
  cases texts with
  | nil => exact ends_cons (.inr h)
  | cons text texts => exact ends_cons (.inl rfl)

theorem itemsWithin_cons (first : Bool) (htext : Spells text v) (hrest : Ends rest) (hsteps : text.length ≤ steps)
    (hcs : skipBlanks cs = skipBlanks (separated first (text ++ rest))) :
    ∃ after, skipBlanks after = skipBlanks rest ∧ itemsWithin (steps + 1) first cs =
      ((v :: (itemsWithin steps false after).1.1, (itemsWithin steps false after).1.2),
        (itemsWithin steps false after).2) := by
  obtain ⟨after, hvalue, hafter⟩ := htext steps rest hsteps hrest
  obtain ⟨c, tail, hhead, -, hclose, -⟩ := htext.exists_head hrest
  refine ⟨after, hafter, ?_⟩
  cases first with
  | true =>
      rw [← valueWithin_skipBlanks, hhead] at hvalue
      rw [itemsWithin, hcs, separated, if_pos rfl, hhead]
      split
      · simp_all
      · simp_all
      · rename_i heq
        obtain ⟨rfl, rfl⟩ := List.cons.inj heq
        simp [hvalue]
  | false =>
      have hcomma : skipBlanks (separated false (text ++ rest)) = ',' :: (text ++ rest) := rfl
      rw [itemsWithin, hcs, hcomma]
      simp [hhead, hclose, hvalue]

theorem itemsWithin_close (hcs : skipBlanks cs = ']' :: rest) (first : Bool) :
    itemsWithin (steps + 1) first cs = (([], none), some rest) := by
  simp only [itemsWithin, hcs]

theorem itemsWithin_later {texts : List (List Char)} {vs : List Json} (h : List.Forall₂ Spells texts vs)
    (hsteps : (laterItems texts).length < steps) (hcs : skipBlanks cs = skipBlanks (laterItems texts ++ ']' :: rest)) :
    itemsWithin steps false cs = ((vs, none), some rest) := by
  induction h generalizing steps cs with
  | nil =>
      obtain _ | steps := steps
      · omega
      · exact itemsWithin_close hcs false
  | @cons text v texts vs htext _ ih =>
      obtain _ | steps := steps
      · omega
      · rw [length_laterItems_cons] at hsteps
        rw [laterItems_cons_append] at hcs
        have hfit : text.length ≤ steps := by omega
        obtain ⟨after, hafter, heq⟩ := itemsWithin_cons false htext (ends_laterItems texts (.inl rfl)) hfit hcs
        rw [heq, ih (by omega) hafter]

/-- An array of texts is spelled by the texts of its items. -/
theorem spells_array {texts : List (List Char)} {vs : List Json} (h : List.Forall₂ Spells texts vs) :
    Spells ('[' :: ([','].intercalate texts ++ [']'])) (.array vs none) := by
  intro steps rest hsteps hrest
  refine ⟨rest, ?_, rfl⟩
  simp only [List.length_cons, List.length_append, List.length_nil] at hsteps
  obtain _ | _ | steps := steps
  · omega
  · omega
  have hitems : itemsWithin (steps + 1) true ([','].intercalate texts ++ ']' :: rest) = ((vs, none), some rest) := by
    cases h with
    | nil => exact itemsWithin_close rfl true
    | @cons text v texts vs htext htexts =>
        have hpos := htext.length_pos
        rw [intercalate_cons_eq, List.length_append] at hsteps
        have hfit : text.length ≤ steps := by omega
        rw [intercalate_cons_append]
        obtain ⟨after, hafter, heq⟩ := itemsWithin_cons true htext (ends_laterItems texts (.inl rfl)) hfit rfl
        rw [heq, itemsWithin_later htexts (by omega) hafter]
  have hvalue : valueWithin (steps + 1 + 1) ('[' :: ([','].intercalate texts ++ ']' :: rest)) =
      (.array vs none, some rest) := by
    simp [valueWithin, skipBlanks, isBlank, hitems]
  simpa using hvalue

/-! ### Objects -/

/-- A name whose characters stand for themselves in a text. -/
def IsPlain (name : String) : Prop :=
  ∀ c ∈ name.toList, c ≠ '"' ∧ c ≠ '\\' ∧ ¬c < ' '

theorem stringWord_of_plain {chars : List Char} (h : ∀ c ∈ chars, c ≠ '"' ∧ c ≠ '\\' ∧ ¬c < ' ') (done : List Char) :
    stringWord ⟨some done, none⟩ (chars ++ '"' :: rest) = .ok (some (String.ofList (done.reverse ++ chars)), rest) := by
  induction chars generalizing done with
  | nil => simp [stringWord, Spelling.text]
  | cons c chars ih =>
      obtain ⟨hquote, hescape, hcontrol⟩ := h c List.mem_cons_self
      have hrest := ih (fun c hc => h c (List.mem_cons_of_mem _ hc)) (c :: done)
      rw [List.cons_append, stringWord, if_neg hcontrol]
      · simpa [Spelling.push] using hrest
      all_goals simp_all

theorem stringWord_name {name : String} (h : IsPlain name) :
    stringWord .empty (name.toList ++ '"' :: rest) = .ok (some name, rest) := by
  simpa [Spelling.empty] using stringWord_of_plain h []

/-- The text of a member of an object, from its name and the text of its value. -/
def memberText (m : String × List Char) : List Char :=
  '"' :: (m.1.toList ++ '"' :: ':' :: m.2)

/-- The member is read with its name and a value that its text spells. -/
def SpellsMember (m : String × List Char) (read : Option String × Json) : Prop :=
  IsPlain m.1 ∧ read.1 = some m.1 ∧ Spells m.2 read.2

theorem membersWithin_cons (first : Bool) {m : String × List Char} {read : Option String × Json}
    (hm : SpellsMember m read) (hrest : Ends rest) (hsteps : m.2.length ≤ steps)
    (hcs : skipBlanks cs = skipBlanks (separated first (memberText m ++ rest))) :
    ∃ after, skipBlanks after = skipBlanks rest ∧ membersWithin (steps + 1) first cs =
      ((read :: (membersWithin steps false after).1.1, (membersWithin steps false after).1.2),
        (membersWithin steps false after).2) := by
  obtain ⟨name, text⟩ := m
  obtain ⟨key, v⟩ := read
  obtain ⟨hname, rfl, htext⟩ := hm
  obtain ⟨after, hvalue, hafter⟩ := htext steps rest hsteps hrest
  refine ⟨after, hafter, ?_⟩
  have hstring : stringWord .empty (name.toList ++ '"' :: ':' :: (text ++ rest)) =
      .ok (some name, ':' :: (text ++ rest)) := stringWord_name hname
  have hquote : ∀ tail, skipBlanks ('"' :: tail) = '"' :: tail := fun tail => rfl
  have hcolon : ∀ tail, skipBlanks (':' :: tail) = ':' :: tail := fun tail => rfl
  have hcomma : ∀ tail, skipBlanks (',' :: tail) = ',' :: tail := fun tail => rfl
  cases first
  all_goals simp [membersWithin, hcs, separated, memberText, hstring, hvalue, hquote, hcolon, hcomma]

theorem membersWithin_close (hcs : skipBlanks cs = '}' :: rest) (first : Bool) :
    membersWithin (steps + 1) first cs = (([], none), some rest) := by
  simp only [membersWithin, hcs]

theorem length_memberText (m : String × List Char) : m.2.length < (memberText m).length := by
  simp only [memberText, List.length_cons, List.length_append]
  omega

theorem membersWithin_later {ms : List (String × List Char)} {reads : List (Option String × Json)}
    (h : List.Forall₂ SpellsMember ms reads) (hsteps : (laterItems (ms.map memberText)).length < steps)
    (hcs : skipBlanks cs = skipBlanks (laterItems (ms.map memberText) ++ '}' :: rest)) :
    membersWithin steps false cs = ((reads, none), some rest) := by
  induction h generalizing steps cs with
  | nil =>
      obtain _ | steps := steps
      · omega
      · exact membersWithin_close hcs false
  | @cons m read ms reads hm _ ih =>
      obtain _ | steps := steps
      · omega
      · rw [List.map_cons, length_laterItems_cons] at hsteps
        rw [List.map_cons, laterItems_cons_append] at hcs
        have hlength := length_memberText m
        have hfit : m.2.length ≤ steps := by omega
        obtain ⟨after, hafter, heq⟩ := membersWithin_cons false hm (ends_laterItems _ (.inr rfl)) hfit hcs
        rw [heq, ih (by omega) hafter]

/-- An object of texts is spelled by the texts of its members. -/
theorem spells_object {ms : List (String × List Char)} {reads : List (Option String × Json)}
    (h : List.Forall₂ SpellsMember ms reads) :
    Spells ('\x7b' :: ([','].intercalate (ms.map memberText) ++ ['\x7d'])) (.object reads none) := by
  intro steps rest hsteps hrest
  refine ⟨rest, ?_, rfl⟩
  simp only [List.length_cons, List.length_append, List.length_nil] at hsteps
  obtain _ | _ | steps := steps
  · omega
  · omega
  have hmembers : membersWithin (steps + 1) true ([','].intercalate (ms.map memberText) ++ '\x7d' :: rest) =
      ((reads, none), some rest) := by
    cases h with
    | nil => exact membersWithin_close rfl true
    | @cons m read ms reads hm hms =>
        have hlength := length_memberText m
        rw [List.map_cons, intercalate_cons_eq, List.length_append] at hsteps
        have hfit : m.2.length ≤ steps := by omega
        rw [List.map_cons, intercalate_cons_append]
        obtain ⟨after, hafter, heq⟩ := membersWithin_cons true hm (ends_laterItems _ (.inr rfl)) hfit rfl
        rw [heq, membersWithin_later hms (by omega) hafter]
  have hvalue : valueWithin (steps + 1 + 1) ('\x7b' :: ([','].intercalate (ms.map memberText) ++ '\x7d' :: rest)) =
      (.object reads none, some rest) := by
    simp [valueWithin, skipBlanks, isBlank, hmembers]
  simpa using hvalue

end PolyProjection.Json
