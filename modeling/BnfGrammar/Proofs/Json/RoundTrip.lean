import BnfGrammar.Json.Printer
import BnfGrammar.Json.Reader
import Mathlib.Data.List.Basic
import Mathlib.Data.Nat.Basic

/-!
# Printed JSON is read back

What the printer writes for a value is read as that value, whatever its texts hold and however deep
it is nested, as long as its numbers are natural numbers in decimal digits (`Json.Natural`). The
reader is given what was written for the value and what follows it, and leaves what follows.

* Texts: an escape is read as the one character that it was written for, and a gap is read as a gap.
* Numbers: a number goes on as far as it can, so what follows must not begin with a digit, a dot or
  an exponent. The printer writes a comma or a line break behind a value.
* Values: by recursion on the value, along with its items and its fields. A call for what stands
  inside a value is given less text, so the bound on nested calls suffices.
-/

namespace BnfGrammar
namespace Json

open Text (Damaged)

/-! ## Texts -/

/-- What the escape of a place of a text stands for. -/
def Piece.ofPlace : Option Char → Piece
  | some c => .char c
  | none => .surrogate 0xD800

theorem hexValue?_digitChar {n : Nat} (h : n < 16) :
    hexValue? (some (Nat.digitChar n)) = some n := by
  have hall : ∀ n < 16, hexValue? (some (Nat.digitChar n)) = some n := by decide
  exact hall n h

/-- A piece in front of what is read of the rest. -/
def Piece.before (piece : Piece) (found : List Piece × Damaged) : List Piece × Damaged :=
  (piece :: found.1, found.2)

theorem readPieces_char {c : Char} (rest : Damaged) (hquote : c ≠ '\x22') (hescape : c ≠ '\\')
    (hcontrol : ¬ c.toNat < 0x20) :
    readPieces (some c :: rest) = (readPieces rest).map (Piece.char c).before := by
  rw [readPieces.eq_def]
  simp only [hquote, hescape, hcontrol, if_false]
  cases readPieces rest with
  | none => rfl
  | some found => rfl

theorem readPieces_letter {e d : Char} (rest : Damaged) (he : e ≠ 'u') (hd : escaped? e = some d) :
    readPieces (some '\\' :: some e :: rest) = (readPieces rest).map (Piece.char d).before := by
  rw [readPieces.eq_4 '\\' e rest (fun _ _ _ _ _ _ hu => he hu), if_neg (by decide),
    if_pos rfl, hd]
  cases readPieces rest with
  | none => rfl
  | some found => rfl

theorem readPieces_unit {h₁ h₂ h₃ h₄ : Option Char} {n₁ n₂ n₃ n₄ : Nat} (rest : Damaged)
    (hn₁ : hexValue? h₁ = some n₁) (hn₂ : hexValue? h₂ = some n₂) (hn₃ : hexValue? h₃ = some n₃)
    (hn₄ : hexValue? h₄ = some n₄) :
    readPieces (some '\\' :: some 'u' :: h₁ :: h₂ :: h₃ :: h₄ :: rest) =
      (readPieces rest).map (Piece.ofUnit (4096 * n₁ + 256 * n₂ + 16 * n₃ + n₄)).before := by
  rw [readPieces.eq_3, if_neg (by decide), if_pos rfl, hn₁, hn₂, hn₃, hn₄]
  cases readPieces rest with
  | none => rfl
  | some found => rfl

/-- A character is escaped by a letter, escaped by its number, or stands for itself. -/
theorem escapeChar_cases (c : Char) :
    (∃ e, e ≠ 'u' ∧ escaped? e = some c ∧ escapeChar c = ['\\', e]) ∨
      (c.toNat < 0x20 ∧ escapeChar c =
        ['\\', 'u', '0', '0', Nat.digitChar (c.toNat / 16), Nat.digitChar (c.toNat % 16)]) ∨
      (c ≠ '\x22' ∧ c ≠ '\\' ∧ ¬ c.toNat < 0x20 ∧ escapeChar c = [c]) := by
  by_cases hself : c = '\x22' ∨ c = '\\' ∨ c = '\x08' ∨ c = '\t' ∨ c = '\n' ∨ c = '\x0c' ∨ c = '\r'
  · left
    rcases hself with rfl | rfl | rfl | rfl | rfl | rfl | rfl
    · exact ⟨'\x22', by decide, rfl, rfl⟩
    · exact ⟨'\\', by decide, rfl, rfl⟩
    · exact ⟨'b', by decide, rfl, rfl⟩
    · exact ⟨'t', by decide, rfl, rfl⟩
    · exact ⟨'n', by decide, rfl, rfl⟩
    · exact ⟨'f', by decide, rfl, rfl⟩
    · exact ⟨'r', by decide, rfl, rfl⟩
  · right
    simp only [not_or] at hself
    rcases hself with ⟨hquote, hescape, hletters⟩
    by_cases hcontrol : c.toNat < 0x20
    · exact Or.inl ⟨hcontrol, by simp [escapeChar, hquote, hescape, hletters, hcontrol]⟩
    · exact Or.inr ⟨hquote, hescape, hcontrol,
        by simp [escapeChar, hquote, hescape, hletters, hcontrol]⟩

theorem readPieces_escapeChar (c : Char) (written : List Char) :
    readPieces ((escapeChar c ++ written).map some) =
      (readPieces (written.map some)).map (Piece.char c).before := by
  rcases escapeChar_cases c with ⟨e, he, hletter, hc⟩ | ⟨hcontrol, hc⟩ |
    ⟨hquote, hescape, hcontrol, hc⟩
  · rw [hc]
    exact readPieces_letter _ he hletter
  · -- The hexadecimal digits are those of the number of the character.
    have hdigits : Piece.ofUnit (4096 * 0 + 256 * 0 + 16 * (c.toNat / 16) + c.toNat % 16) =
        .char c := by
      have hsum : 4096 * 0 + 256 * 0 + 16 * (c.toNat / 16) + c.toNat % 16 = c.toNat := by omega
      have hsmall : ¬ 0xD800 ≤ c.toNat := by omega
      rw [hsum, Piece.ofUnit]
      simp [hsmall]
    rw [hc, ← hdigits]
    have hhigh := hexValue?_digitChar (n := c.toNat / 16) (by omega)
    have hlow := hexValue?_digitChar (n := c.toNat % 16) (by omega)
    exact readPieces_unit _ rfl rfl hhigh hlow
  · rw [hc]
    exact readPieces_char _ hquote hescape hcontrol

/-- The escape of a place is read as one piece. -/
theorem readPieces_escapePlace (place : Option Char) (written : List Char) :
    readPieces ((escapePlace place ++ written).map some) =
      (readPieces (written.map some)).map (Piece.ofPlace place).before := by
  cases place with
  | some c => exact readPieces_escapeChar c written
  | none =>
      have hletter : hexValue? (some 'd') = some 13 := rfl
      have height : hexValue? (some '8') = some 8 := rfl
      have hzero : hexValue? (some '0') = some 0 := rfl
      exact readPieces_unit _ hletter height hzero hzero

theorem readPieces_foldr (content : Damaged) (rest : List Char) :
    readPieces ((content.foldr (fun place written => escapePlace place ++ written)
        ('\x22' :: rest)).map some) =
      some (content.map Piece.ofPlace, rest.map some) := by
  induction content with
  | nil =>
      rw [List.foldr_nil, List.map_cons, readPieces.eq_def]
      rfl
  | cons place content ih =>
      rw [List.foldr_cons, readPieces_escapePlace, ih]
      rfl

/-- A gap never is the first half of a surrogate pair. -/
theorem joinPieces_ofPlace (content : Damaged) :
    joinPieces (content.map Piece.ofPlace) = content := by
  induction content with
  | nil => rfl
  | cons place content ih =>
      cases place with
      | some c =>
          change some c :: joinPieces (content.map Piece.ofPlace) = _
          rw [ih]
      | none =>
          cases content with
          | nil => rfl
          | cons second content =>
              cases second with
              | some c =>
                  change none :: joinPieces ((some c :: content).map Piece.ofPlace) = _
                  rw [ih]
              | none =>
                  change none :: joinPieces ((none :: content).map Piece.ofPlace) = _
                  rw [ih]

/-- Behind its opening quote, a printed text is read back. -/
theorem readText_printText (content : Damaged) (rest : List Char) :
    readText ((printText content rest).tail.map some) = some (content, rest.map some) := by
  have hpieces := readPieces_foldr content rest
  rw [readText, printText, List.tail_cons, hpieces]
  exact congrArg (fun found => some (found, rest.map some)) (joinPieces_ofPlace content)

/-! ## Numbers -/

/-- What the printer writes behind a value: nothing, a comma or a line break. -/
def Behind (rest : List Char) : Prop :=
  ∀ c ∈ rest.head?, c = ',' ∨ c = '\n'

theorem spanDigits_append {digits rest : List Char} (hdigits : ∀ c ∈ digits, c.isDigit = true)
    (hrest : Behind rest) : spanDigits ((digits ++ rest).map some) = (digits, rest.map some) := by
  induction digits with
  | nil =>
      cases rest with
      | nil => rfl
      | cons c rest =>
          rcases hrest c rfl with rfl | rfl
          · rfl
          · rfl
  | cons digit digits ih =>
      have hdigit := hdigits digit List.mem_cons_self
      have hmore := ih fun c hc => hdigits c (List.mem_cons_of_mem digit hc)
      rw [List.cons_append, List.map_cons, spanDigits, if_pos hdigit, hmore]

/-- A number that is not zero does not begin with a zero. -/
theorem exists_toDigits {n : Nat} (hn : 0 < n) :
    ∃ digit digits, Nat.toDigits 10 n = digit :: digits ∧ digit ≠ '0' := by
  induction n using Nat.strong_induction_on with
  | _ n ih =>
      by_cases hlt : n < 10
      · have hall : ∀ m < 10, 0 < m → Nat.digitChar m ≠ '0' := by decide
        exact ⟨n.digitChar, [], Nat.toDigits_of_lt_base hlt, hall n hlt hn⟩
      · -- The first digit is that of a tenth of the number.
        rcases ih (n / 10) (by omega) (by omega) with ⟨digit, digits, hdigits, hdigit⟩
        refine ⟨digit, digits ++ [(n % 10).digitChar], ?_, hdigit⟩
        rw [Nat.toDigits_of_base_le (by decide) (by omega), hdigits, List.cons_append]

theorem readInteger_toDigits (n : Nat) {rest : List Char} (hrest : Behind rest) :
    readInteger ((Nat.toDigits 10 n ++ rest).map some) =
      some (Nat.toDigits 10 n, rest.map some) := by
  have hdigits : ∀ c ∈ Nat.toDigits 10 n, c.isDigit = true :=
    fun c hc => Nat.isDigit_of_mem_toDigits (by decide) le_rfl hc
  rw [readInteger, readDigits, spanDigits_append hdigits hrest]
  rcases Nat.eq_zero_or_pos n with rfl | hn
  · rfl
  · rcases exists_toDigits hn with ⟨digit, digits, hwritten, hdigit⟩
    rw [hwritten]
    split
    · rename_i hzero
      cases hzero
      exact absurd rfl hdigit
    · rfl

theorem readFraction_map {rest : List Char} (hrest : Behind rest) :
    readFraction (rest.map some) = some ([], rest.map some) := by
  cases rest with
  | nil => rfl
  | cons c rest =>
      rcases hrest c rfl with rfl | rfl
      · rfl
      · rfl

theorem readExponent_map {rest : List Char} (hrest : Behind rest) :
    readExponent (rest.map some) = some ([], rest.map some) := by
  cases rest with
  | nil => rfl
  | cons c rest =>
      rcases hrest c rfl with rfl | rfl
      · rfl
      · rfl

theorem exists_digit (n : Nat) :
    ∃ digit digits, Nat.toDigits 10 n = digit :: digits ∧ digit.isDigit = true := by
  rcases List.exists_cons_of_ne_nil (Nat.toDigits_ne_nil (n := n) (b := 10)) with
    ⟨digit, digits, hwritten⟩
  refine ⟨digit, digits, hwritten, ?_⟩
  exact Nat.isDigit_of_mem_toDigits (by decide) le_rfl (hwritten ▸ List.mem_cons_self)

theorem readNumber_toDigits (n : Nat) {rest : List Char} (hrest : Behind rest) :
    readNumber ((Nat.toDigits 10 n ++ rest).map some) =
      some (.number (Nat.toDigits 10 n), rest.map some) := by
  have hinteger := readInteger_toDigits n hrest
  rcases exists_digit n with ⟨digit, digits, hwritten, hdigit⟩
  rw [hwritten] at hinteger ⊢
  have hsign : digit ≠ '-' := by
    rintro rfl
    cases hdigit
  rw [readNumber, hinteger]
  · simp [readFraction_map hrest, readExponent_map hrest]
  · intro more hminus
    cases hminus
    exact hsign rfl

/-! ## Values -/

/-- All numbers of a value are natural numbers. -/
inductive Natural : Json → Prop
  | null : Natural .null
  | bool (b : Bool) : Natural (.bool b)
  | number (n : Nat) : Natural (ofNat n)
  | text (content : Damaged) : Natural (.text content)
  | array {items : List Json} : (∀ item ∈ items, Natural item) → Natural (.array items)
  | object {fields : List (Damaged × Json)} :
      (∀ field ∈ fields, Natural field.2) → Natural (.object fields)

/-- The characters that a value may begin with. -/
def Begins (c : Char) : Prop :=
  c.isDigit = true ∨ c ∈ ['n', 't', 'f', '\x22', '[', '\x7b']

/-! ### Blanks -/

theorem skipBlanks_lineBreak (level : Nat) (written : List Char) :
    skipBlanks ((lineBreak level written).map some) = skipBlanks (written.map some) := by
  have hindented : ∀ n, skipBlanks ((List.replicate n ' ' ++ written).map some) =
      skipBlanks (written.map some) := by
    intro n
    induction n with
    | zero => rfl
    | succ n ih => exact ih
  exact hindented (2 * level)

/-- No value begins with a blank, or as the end of an array does. -/
theorem Begins.not_blank {c : Char} (h : Begins c) (rest : Damaged) :
    skipBlanks (some c :: rest) = some c :: rest ∧ c ≠ ']' := by
  have hblank : ¬ (c = ' ' ∨ c = '\t' ∨ c = '\n' ∨ c = '\r') ∧ c ≠ ']' := by
    rcases h with hdigit | hmem
    · refine ⟨?_, ?_⟩
      · rintro (rfl | rfl | rfl | rfl) <;> cases hdigit
      · rintro rfl
        cases hdigit
    · simp only [List.mem_cons, List.not_mem_nil, or_false] at hmem
      rcases hmem with rfl | rfl | rfl | rfl | rfl | rfl <;> decide
  refine ⟨?_, hblank.2⟩
  rw [skipBlanks, if_neg (by simpa [or_assoc] using hblank.1)]

theorem readValue_skip (depth : Nat) {input input' : Damaged}
    (h : skipBlanks input = skipBlanks input') :
    readValue depth input = readValue depth input' := by
  cases depth with
  | zero => rfl
  | succ depth => rw [readValue, readValue, h]

theorem readItems_skip (depth : Nat) {input input' : Damaged}
    (h : skipBlanks input = skipBlanks input') :
    readItems depth input = readItems depth input' := by
  cases depth with
  | zero => rfl
  | succ depth => rw [readItems, readItems, readValue_skip depth h]

theorem readFields_skip (depth : Nat) {input input' : Damaged}
    (h : skipBlanks input = skipBlanks input') :
    readFields depth input = readFields depth input' := by
  cases depth with
  | zero => rfl
  | succ depth => rw [readFields, readFields, h]

/-! ### Values by their first character -/

theorem readValue_number (depth n : Nat) {rest : List Char} (hrest : Behind rest) :
    readValue (depth + 1) ((Nat.toDigits 10 n ++ rest).map some) =
      some (.number (Nat.toDigits 10 n), rest.map some) := by
  have hnumber := readNumber_toDigits n hrest
  rcases exists_digit n with ⟨digit, digits, hwritten, hdigit⟩
  have hbegins : Begins digit := Or.inl hdigit
  rw [hwritten] at hnumber ⊢
  have hskip : skipBlanks ((digit :: digits ++ rest).map some) =
      (digit :: digits ++ rest).map some :=
    (hbegins.not_blank _).1
  rw [readValue, hskip]
  split
  case h_7 => exact hnumber
  -- No other value begins with a digit.
  all_goals
    rename_i heq
    injection heq with hhead
    cases hhead
    cases hdigit

theorem readValue_text (depth : Nat) (content : Damaged) (rest : List Char) :
    readValue (depth + 1) ((printText content rest).map some) =
      some (.text content, rest.map some) := by
  have hskip : skipBlanks ((printText content rest).map some) =
      some '\x22' :: (printText content rest).tail.map some :=
    rfl
  rw [readValue, hskip]
  simp only [readText_printText]
  rfl

theorem readValue_array (depth : Nat) {c : Char} {input written : Damaged}
    (hinput : skipBlanks input = some c :: written) (hc : Begins c) :
    readValue (depth + 1) (some '[' :: input) =
      (readItems depth input).map fun found => (.array found.1, found.2) := by
  have hskip : skipBlanks (some '[' :: input) = some '[' :: input := rfl
  rcases hc.not_blank written with ⟨hblank, hclosed⟩
  have hitems : readItems depth (some c :: written) = readItems depth input :=
    readItems_skip depth (hblank.trans hinput.symm)
  rw [readValue, hskip]
  simp only [hinput]
  split
  · rename_i hclosing
    cases hclosing
    exact absurd rfl hclosed
  · rw [hitems]
    cases readItems depth input with
    | none => rfl
    | some found => rfl

theorem readValue_object (depth : Nat) {input written : Damaged}
    (hinput : skipBlanks input = some '\x22' :: written) :
    readValue (depth + 1) (some '\x7b' :: input) =
      (readFields depth input).map fun found => (.object found.1, found.2) := by
  have hskip : skipBlanks (some '\x7b' :: input) = some '\x7b' :: input := rfl
  have hquote : skipBlanks (some '\x22' :: written) = some '\x22' :: written := rfl
  have hfields : readFields depth (some '\x22' :: written) = readFields depth input :=
    readFields_skip depth (hquote.trans hinput.symm)
  rw [readValue, hskip]
  simp only [hinput]
  split
  · rename_i hclosing
    cases hclosing
  · rw [hfields]
    cases readFields depth input with
    | none => rfl
    | some found => rfl

/-! ### Items and fields by what stands behind the first -/

theorem readItems_last {depth : Nat} {input afterItem after : Damaged} {item : Json}
    (hitem : readValue depth input = some (item, afterItem))
    (hafter : skipBlanks afterItem = some ']' :: after) :
    readItems (depth + 1) input = some ([item], after) := by
  rw [readItems, hitem]
  simp only [Option.bind_eq_bind, Option.bind_some, hafter]
  rfl

theorem readItems_more {depth : Nat} {input afterItem rest : Damaged} {item : Json}
    (hitem : readValue depth input = some (item, afterItem))
    (hafter : skipBlanks afterItem = some ',' :: rest) :
    readItems (depth + 1) input =
      (readItems depth rest).map fun found => (item :: found.1, found.2) := by
  rw [readItems, hitem]
  simp only [Option.bind_eq_bind, Option.bind_some, hafter]
  cases readItems depth rest with
  | none => rfl
  | some found => rfl

/-- A field is read as its name and its value, and what stands behind it tells what comes then. -/
theorem readFields_field {depth : Nat} {input afterValue name : Damaged} {value : Json}
    {written : List Char}
    (hinput : skipBlanks input = (printText name (':' :: ' ' :: written)).map some)
    (hvalue : readValue depth (written.map some) = some (value, afterValue)) :
    (∀ rest, skipBlanks afterValue = some ',' :: rest → readFields (depth + 1) input =
        (readFields depth rest).map fun found => ((name, value) :: found.1, found.2)) ∧
      ∀ rest, skipBlanks afterValue = some '\x7d' :: rest →
        readFields (depth + 1) input = some ([(name, value)], rest) := by
  have hname := readText_printText name (':' :: ' ' :: written)
  have hquote : (printText name (':' :: ' ' :: written)).map some =
      some '\x22' :: (printText name (':' :: ' ' :: written)).tail.map some := rfl
  have hcolon : skipBlanks ((':' :: ' ' :: written).map some) =
      some ':' :: some ' ' :: written.map some := rfl
  have hblank : readValue depth (some ' ' :: written.map some) =
      readValue depth (written.map some) :=
    readValue_skip depth rfl
  refine ⟨?_, ?_⟩
  · intro rest hafter
    rw [readFields, hinput, hquote]
    simp only [Option.bind_eq_bind, Option.bind_some, hname, hcolon, hblank, hvalue, hafter]
    cases readFields depth rest with
    | none => rfl
    | some found => rfl
  · intro rest hafter
    rw [readFields, hinput, hquote]
    simp only [Option.bind_eq_bind, Option.bind_some, hname, hcolon, hblank, hvalue, hafter]
    rfl

/-! ### Lengths -/

theorem length_lineBreak (level : Nat) (rest : List Char) :
    rest.length < (lineBreak level rest).length := by
  rw [lineBreak, List.length_append, List.length_cons]
  omega

theorem length_printText (content : Damaged) (rest : List Char) :
    rest.length < (printText content rest).length := by
  have hfoldr : ∀ closed : List Char, closed.length ≤
      (content.foldr (fun place written => escapePlace place ++ written) closed).length := by
    intro closed
    induction content with
    | nil => exact le_rfl
    | cons place content ih =>
        rw [List.foldr_cons, List.length_append]
        omega
  have hclosed := hfoldr ('\x22' :: rest)
  rw [List.length_cons] at hclosed
  rw [printText, List.length_cons]
  omega

/-- A field of an object as it is written before `rest`. -/
def printField (level : Nat) (field : Damaged × Json) (rest : List Char) : List Char :=
  printText field.1 (':' :: ' ' :: print (level + 1) field.2 rest)

theorem length_printField (level : Nat) (field : Damaged × Json) (rest : List Char) :
    (print (level + 1) field.2 rest).length < (printField level field rest).length := by
  have htext := length_printText field.1 (':' :: ' ' :: print (level + 1) field.2 rest)
  simp only [List.length_cons] at htext
  rw [printField]
  omega

/-! ### The round trip -/

/-- A value printed at a level is read back, and what follows it is left. -/
structure ReadsBack (level : Nat) (value : Json) : Prop where
  begins : ∀ rest, ∃ c written, print level value rest = c :: written ∧ Begins c
  longer : ∀ rest, rest.length < (print level value rest).length
  read : ∀ (depth : Nat) (rest : List Char), Behind rest →
    2 * (print level value rest).length ≤ depth + 2 * rest.length →
    readValue depth ((print level value rest).map some) = some (value, rest.map some)

theorem behind_lineBreak (level : Nat) (rest : List Char) : Behind (lineBreak level rest) := by
  intro c hc
  exact Or.inr (Option.some.inj hc).symm

theorem behind_printItems (level : Nat) (items : List Json) (rest : List Char) :
    Behind (printItems level items rest) := by
  cases items with
  | nil => exact behind_lineBreak level _
  | cons item items => exact fun c hc => Or.inl (Option.some.inj hc).symm

theorem behind_printFields (level : Nat) (fields : List (Damaged × Json)) (rest : List Char) :
    Behind (printFields level fields rest) := by
  cases fields with
  | nil => exact behind_lineBreak level _
  | cons field fields => exact fun c hc => Or.inl (Option.some.inj hc).symm

theorem ReadsBack.skipBlanks {level : Nat} {value : Json} (h : ReadsBack level value)
    (rest : List Char) :
    Json.skipBlanks ((print level value rest).map some) = (print level value rest).map some := by
  rcases h.begins rest with ⟨c, written, hwritten, hc⟩
  rw [hwritten]
  exact (hc.not_blank _).1

section Parts

variable {level : Nat} {items : List Json} {fields : List (Damaged × Json)}

theorem length_printItems (h : ∀ item ∈ items, ReadsBack (level + 1) item) (rest : List Char) :
    rest.length < (printItems level items rest).length := by
  induction items with
  | nil =>
      have hbreak := length_lineBreak level (']' :: rest)
      rw [List.length_cons] at hbreak
      rw [printItems]
      omega
  | cons item items ih =>
      have hmore := ih fun other hother => h other (List.mem_cons_of_mem item hother)
      have hitem := (h item List.mem_cons_self).longer (printItems level items rest)
      have hbreak := length_lineBreak (level + 1)
        (print (level + 1) item (printItems level items rest))
      rw [printItems, List.length_cons]
      omega

theorem length_printFields (h : ∀ field ∈ fields, ReadsBack (level + 1) field.2)
    (rest : List Char) : rest.length < (printFields level fields rest).length := by
  induction fields with
  | nil =>
      have hbreak := length_lineBreak level ('\x7d' :: rest)
      rw [List.length_cons] at hbreak
      rw [printFields]
      omega
  | cons field fields ih =>
      have hmore := ih fun other hother => h other (List.mem_cons_of_mem field hother)
      have hvalue := (h field List.mem_cons_self).longer (printFields level fields rest)
      have hfield := length_printField level field (printFields level fields rest)
      have hbreak := length_lineBreak (level + 1)
        (printField level field (printFields level fields rest))
      have hwritten : printFields level (field :: fields) rest =
          ',' :: lineBreak (level + 1) (printField level field (printFields level fields rest)) :=
        rfl
      rw [hwritten, List.length_cons]
      omega

theorem readItems_print {item : Json} (hitem : ReadsBack (level + 1) item)
    (hitems : ∀ other ∈ items, ReadsBack (level + 1) other) {depth : Nat} {rest : List Char}
    (hdepth : 2 * (print (level + 1) item (printItems level items rest)).length ≤
      depth + 2 * rest.length) :
    readItems depth ((print (level + 1) item (printItems level items rest)).map some) =
      some (item :: items, rest.map some) := by
  -- By induction on the items behind the first. Each item leaves enough calls for those behind it.
  induction items generalizing item depth with
  | nil =>
      have hlonger := hitem.longer (printItems level [] rest)
      have hbehind := length_printItems hitems rest
      cases depth with
      | zero => omega
      | succ depth =>
          have hfirst := hitem.read depth _ (behind_printItems level [] rest) (by omega)
          exact readItems_last hfirst (skipBlanks_lineBreak level (']' :: rest))
  | cons next items ih =>
      have hnext := hitems next List.mem_cons_self
      have hmore : ∀ other ∈ items, ReadsBack (level + 1) other :=
        fun other hother => hitems other (List.mem_cons_of_mem next hother)
      have hlonger := hitem.longer (printItems level (next :: items) rest)
      have hbehind := length_printItems hitems rest
      have hbreak := length_lineBreak (level + 1)
        (print (level + 1) next (printItems level items rest))
      have hwritten : printItems level (next :: items) rest =
          ',' :: lineBreak (level + 1) (print (level + 1) next (printItems level items rest)) :=
        rfl
      rw [hwritten, List.length_cons] at hlonger hbehind
      rw [hwritten] at hdepth
      cases depth with
      | zero => omega
      | succ depth =>
          have hfirst := hitem.read depth _ (behind_printItems level (next :: items) rest) (by
            rw [hwritten, List.length_cons]
            omega)
          have hdepth' : 2 * (print (level + 1) next (printItems level items rest)).length ≤
              depth + 2 * rest.length := by
            omega
          rw [readItems_more hfirst rfl, readItems_skip depth (skipBlanks_lineBreak (level + 1) _),
            ih hnext hmore hdepth']
          rfl

theorem readFields_print {field : Damaged × Json} (hfield : ReadsBack (level + 1) field.2)
    (hfields : ∀ other ∈ fields, ReadsBack (level + 1) other.2) {depth : Nat} {rest : List Char}
    (hdepth : 2 * (print (level + 1) field.2 (printFields level fields rest)).length ≤
      depth + 2 * rest.length) :
    readFields depth ((printField level field (printFields level fields rest)).map some) =
      some (field :: fields, rest.map some) := by
  -- By induction on the fields behind the first, as for items.
  induction fields generalizing field depth with
  | nil =>
      have hlonger := hfield.longer (printFields level [] rest)
      have hbehind := length_printFields hfields rest
      cases depth with
      | zero => omega
      | succ depth =>
          have hfirst := hfield.read depth _ (behind_printFields level [] rest) (by omega)
          exact (readFields_field rfl hfirst).2 _ (skipBlanks_lineBreak level ('\x7d' :: rest))
  | cons next fields ih =>
      have hnext := hfields next List.mem_cons_self
      have hmore : ∀ other ∈ fields, ReadsBack (level + 1) other.2 :=
        fun other hother => hfields other (List.mem_cons_of_mem next hother)
      have hlonger := hfield.longer (printFields level (next :: fields) rest)
      have hbehind := length_printFields hfields rest
      have hvalue := length_printField level next (printFields level fields rest)
      have hbreak := length_lineBreak (level + 1)
        (printField level next (printFields level fields rest))
      have hwritten : printFields level (next :: fields) rest =
          ',' :: lineBreak (level + 1) (printField level next (printFields level fields rest)) :=
        rfl
      rw [hwritten, List.length_cons] at hlonger hbehind
      rw [hwritten] at hdepth
      cases depth with
      | zero => omega
      | succ depth =>
          have hfirst := hfield.read depth _ (behind_printFields level (next :: fields) rest) (by
            rw [hwritten, List.length_cons]
            omega)
          have hdepth' : 2 * (print (level + 1) next.2 (printFields level fields rest)).length ≤
              depth + 2 * rest.length := by
            omega
          have hcomma : skipBlanks ((printFields level (next :: fields) rest).map some) =
              some ',' :: (lineBreak (level + 1)
                (printField level next (printFields level fields rest))).map some :=
            rfl
          refine ((readFields_field rfl hfirst).1 _ hcomma).trans ?_
          rw [readFields_skip depth (skipBlanks_lineBreak (level + 1) _), ih hnext hmore hdepth']
          rfl

end Parts

/-- A value takes at least one character, so at least one call is left for it. -/
theorem ReadsBack.of_succ {level : Nat} {value : Json}
    (hbegins : ∀ rest, ∃ c written, print level value rest = c :: written ∧ Begins c)
    (hlonger : ∀ rest, rest.length < (print level value rest).length)
    (hread : ∀ (depth : Nat) (rest : List Char), Behind rest →
      2 * (print level value rest).length ≤ depth + 1 + 2 * rest.length →
      readValue (depth + 1) ((print level value rest).map some) = some (value, rest.map some)) :
    ReadsBack level value := by
  refine ⟨hbegins, hlonger, ?_⟩
  intro depth rest hrest hdepth
  have hlength := hlonger rest
  cases depth with
  | zero => omega
  | succ depth => exact hread depth rest hrest hdepth

/-- A value that is always written as the same word. -/
theorem readsBack_word {level : Nat} {value : Json} (c : Char) (word : List Char) (hc : Begins c)
    (hprint : ∀ rest, print level value rest = c :: (word ++ rest))
    (hread : ∀ (depth : Nat) (rest : List Char),
      readValue (depth + 1) ((c :: (word ++ rest)).map some) = some (value, rest.map some)) :
    ReadsBack level value := by
  refine .of_succ (fun rest => ⟨c, word ++ rest, hprint rest, hc⟩) ?_ ?_
  · intro rest
    rw [hprint, List.length_cons, List.length_append]
    omega
  · intro depth rest _ _
    rw [hprint, hread]

theorem readsBack_number (level n : Nat) : ReadsBack level (ofNat n) := by
  rcases exists_digit n with ⟨digit, digits, hwritten, hdigit⟩
  have hprint : ∀ rest, print level (ofNat n) rest = digit :: (digits ++ rest) := by
    intro rest
    rw [ofNat, print, hwritten, List.cons_append]
  refine .of_succ (fun rest => ⟨digit, _, hprint rest, Or.inl hdigit⟩) ?_ ?_
  · intro rest
    rw [hprint, List.length_cons, List.length_append]
    omega
  · -- A number is only read to its end if no digit and no fraction follows.
    exact fun depth rest hrest _ => readValue_number depth n hrest

theorem readsBack_text (level : Nat) (content : Damaged) : ReadsBack level (.text content) := by
  refine .of_succ (fun rest => ⟨'\x22', _, rfl, by simp [Begins]⟩) ?_ ?_
  · exact fun rest => length_printText content rest
  · exact fun depth rest _ _ => readValue_text depth content rest

theorem readsBack_array {level : Nat} {items : List Json}
    (h : ∀ item ∈ items, ReadsBack (level + 1) item) : ReadsBack level (.array items) := by
  cases items with
  | nil =>
      exact readsBack_word '[' [']'] (by simp [Begins]) (fun _ => rfl) fun _ _ => rfl
  | cons item items =>
      have hitem := h item List.mem_cons_self
      have hmore : ∀ other ∈ items, ReadsBack (level + 1) other :=
        fun other hother => h other (List.mem_cons_of_mem item hother)
      have hlength : ∀ rest, (print (level + 1) item (printItems level items rest)).length + 1 <
          (print level (.array (item :: items)) rest).length := by
        intro rest
        have hbreak := length_lineBreak (level + 1)
          (print (level + 1) item (printItems level items rest))
        rw [print, List.length_cons]
        omega
      refine .of_succ (fun rest => ⟨'[', _, rfl, by simp [Begins]⟩) ?_ ?_
      · intro rest
        have hlonger := hitem.longer (printItems level items rest)
        have hbehind := length_printItems hmore rest
        have hwhole := hlength rest
        omega
      · intro depth rest _ hdepth
        have hwhole := hlength rest
        rcases hitem.begins (printItems level items rest) with ⟨c, written, hwritten, hc⟩
        have hinput : skipBlanks ((lineBreak (level + 1)
              (print (level + 1) item (printItems level items rest))).map some) =
            some c :: written.map some := by
          rw [skipBlanks_lineBreak, hitem.skipBlanks, hwritten]
          rfl
        refine (readValue_array depth hinput hc).trans ?_
        rw [readItems_skip depth (skipBlanks_lineBreak (level + 1) _),
          readItems_print hitem hmore (by omega)]
        rfl

theorem readsBack_object {level : Nat} {fields : List (Damaged × Json)}
    (h : ∀ field ∈ fields, ReadsBack (level + 1) field.2) : ReadsBack level (.object fields) := by
  cases fields with
  | nil =>
      exact readsBack_word '\x7b' ['\x7d'] (by simp [Begins]) (fun _ => rfl) fun _ _ => rfl
  | cons field fields =>
      have hfield := h field List.mem_cons_self
      have hmore : ∀ other ∈ fields, ReadsBack (level + 1) other.2 :=
        fun other hother => h other (List.mem_cons_of_mem field hother)
      have hwritten : ∀ rest, print level (.object (field :: fields)) rest =
          '\x7b' :: lineBreak (level + 1) (printField level field (printFields level fields rest)) :=
        fun _ => rfl
      have hlength : ∀ rest, (print (level + 1) field.2 (printFields level fields rest)).length + 1 <
          (print level (.object (field :: fields)) rest).length := by
        intro rest
        have hvalue := length_printField level field (printFields level fields rest)
        have hbreak := length_lineBreak (level + 1)
          (printField level field (printFields level fields rest))
        rw [hwritten, List.length_cons]
        omega
      refine .of_succ (fun rest => ⟨'\x7b', _, hwritten rest, by simp [Begins]⟩) ?_ ?_
      · intro rest
        have hlonger := hfield.longer (printFields level fields rest)
        have hbehind := length_printFields hmore rest
        have hwhole := hlength rest
        omega
      · intro depth rest _ hdepth
        have hwhole := hlength rest
        have hinput := skipBlanks_lineBreak (level + 1)
          (printField level field (printFields level fields rest))
        rw [hwritten]
        refine (readValue_object depth hinput).trans ?_
        rw [readFields_skip depth (skipBlanks_lineBreak (level + 1) _),
          readFields_print hfield hmore (by omega)]
        rfl

/-- Every value of natural numbers is read back at every level. -/
theorem Natural.readsBack {value : Json} (h : value.Natural) :
    ∀ level, ReadsBack level value := by
  induction h with
  | null =>
      intro level
      exact readsBack_word 'n' ['u', 'l', 'l'] (by simp [Begins]) (fun _ => rfl) fun _ _ => rfl
  | bool b =>
      intro level
      cases b with
      | true =>
          exact readsBack_word 't' ['r', 'u', 'e'] (by simp [Begins]) (fun _ => rfl) fun _ _ => rfl
      | false =>
          exact readsBack_word 'f' ['a', 'l', 's', 'e'] (by simp [Begins]) (fun _ => rfl)
            fun _ _ => rfl
  | number n => exact fun level => readsBack_number level n
  | text content => exact fun level => readsBack_text level content
  | array _ ih => exact fun level => readsBack_array fun item hitem => ih item hitem (level + 1)
  | object _ ih =>
      exact fun level => readsBack_object fun field hfield => ih field hfield (level + 1)

/-- What is printed for a value of natural numbers is parsed as that value. -/
theorem parse?_pretty {value : Json} (h : value.Natural) :
    parse? (Text.intact value.pretty) = some value := by
  have hread := (h.readsBack 0).read (2 * (print 0 value []).length + 2) [] (by simp [Behind])
    (by omega)
  have hinput : Text.intact value.pretty = (print 0 value []).map some := by
    rw [Text.intact, pretty, String.toList_ofList]
  rw [parse?, hinput, List.length_map, hread]
  rfl

end Json
end BnfGrammar
