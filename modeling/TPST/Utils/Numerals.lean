import Std.Data.String.ToNat
import TPST.Foundations.Fields
import TPST.Utils.Strings

/-!
# The numbers that `stoi` reads

`stoi` is lenient: it skips white space, takes an optional sign, and ignores what follows the
digits. `Numeral s n` says that `s` is such a text of the `int` `n`, and `stoi_eq_ok_iff` that these
are the texts it reads, with that number. A number printed in decimal is one of them
(`numeral_toString`), and so is one that stands alone (`Integer`), with white space around it.

In the same way `Cut.Pieces` says what `split` finds (`splitLoop_eq_iff`).
-/

namespace TPST

open Cut

/-- The numbers of type `int`. -/
def IsInt (n : Int) : Prop := -2147483648 ≤ n ∧ n ≤ 2147483647

instance (n : Int) : Decidable (IsInt n) := inferInstanceAs (Decidable (_ ∧ _))

/-- An optional sign, and its factor. -/
inductive Sign : List Char → Int → Prop
  | none : Sign [] 1
  | plus : Sign ['+'] 1
  | minus : Sign ['-'] (-1)

/-- White space, an optional sign, digits, and anything that does not begin with a digit, where the
number is an `int`. -/
inductive Numeral : List Char → Int → Prop
  | mk {spaces sign digits rest : List Char} {factor : Int}
      (hspaces : ∀ c ∈ spaces, isSpace c = true) (hsign : Sign sign factor) (hne : digits ≠ [])
      (hdigits : ∀ c ∈ digits, c.isDigit = true) (hrest : ∀ c ∈ rest.head?, c.isDigit = false)
      (hint : IsInt (factor * digitsValue digits)) :
      Numeral (spaces ++ (sign ++ (digits ++ rest))) (factor * digitsValue digits)

/-- A number of type `int` in decimal and nothing else: an optional sign and digits, with white
space around them. -/
inductive Integer : List Char → Int → Prop
  | mk {spaces sign digits trailing : List Char} {factor : Int}
      (hspaces : ∀ c ∈ spaces, isSpace c = true) (hsign : Sign sign factor) (hne : digits ≠ [])
      (hdigits : ∀ c ∈ digits, c.isDigit = true) (htrailing : ∀ c ∈ trailing, isSpace c = true)
      (hint : IsInt (factor * digitsValue digits)) :
      Integer (spaces ++ (sign ++ (digits ++ trailing))) (factor * digitsValue digits)

/-! ## What `stoi` reads -/

section Stoi

variable {s : List Char} {c : Char} {n : Int}

theorem ne_of_isDigit (hdigit : c.isDigit = true) :
    isSpace c = false ∧ c ≠ '-' ∧ c ≠ '+' ∧ c ≠ ',' ∧ c ≠ ':' ∧ c ≠ '%' := by
  have hne : ∀ d : Char, d.isDigit = false → c ≠ d := by
    rintro d hd rfl
    simp [hdigit] at hd
  refine ⟨?_, hne '-' rfl, hne '+' rfl, hne ',' rfl, hne ':' rfl, hne '%' rfl⟩
  simp [isSpace, hne ' ' rfl, hne '\t' rfl, hne '\n' rfl, hne '\x0b' rfl, hne '\x0c' rfl,
    hne '\r' rfl]

/-- A sign in front of digits is read as it is. -/
theorem readSign_append {sign : List Char} {factor : Int} (hsign : Sign sign factor)
    (hs : ∀ d ∈ s.head?, d ≠ '-' ∧ d ≠ '+') : readSign (sign ++ s) = (factor, s) := by
  cases hsign with
  | plus => rfl
  | minus => rfl
  | none =>
    cases s with
    | nil => rfl
    | cons d s =>
      obtain ⟨hminus, hplus⟩ := hs d rfl
      simp only [List.nil_append]
      unfold readSign
      split
      · rename_i heq
        exact absurd (List.cons.inj heq).1 hminus
      · rename_i heq
        exact absurd (List.cons.inj heq).1 hplus
      · rfl

theorem exists_sign (s : List Char) :
    ∃ sign factor s', readSign s = (factor, s') ∧ Sign sign factor ∧ s = sign ++ s' := by
  unfold readSign
  split
  · exact ⟨_, _, _, rfl, .minus, rfl⟩
  · exact ⟨_, _, _, rfl, .plus, rfl⟩
  · exact ⟨_, _, _, rfl, .none, rfl⟩

/-- The first character of a sign and digits is no space. -/
theorem isSpace_head {sign digits : List Char} {factor : Int} (hsign : Sign sign factor)
    (hne : digits ≠ []) (hdigits : ∀ c ∈ digits, c.isDigit = true) :
    ∀ c ∈ (sign ++ (digits ++ s)).head?, isSpace c = false := by
  obtain ⟨d, digits, rfl⟩ := List.exists_cons_of_ne_nil hne
  have hd := (ne_of_isDigit (hdigits d (by simp))).1
  cases hsign with
  | none => simpa using hd
  | plus => simp [isSpace]
  | minus => simp [isSpace]

/-- **The texts that `stoi` reads**, and the number it reads. -/
theorem stoi_eq_ok_iff : stoi s = .ok n ↔ Numeral s n := by
  constructor
  · intro h
    obtain ⟨spaces, s, rfl, hspaces, hs⟩ := exists_append_stop isSpace s
    obtain ⟨sign, factor, s, hread, hsign, rfl⟩ := exists_sign s
    obtain ⟨digits, rest, rfl, hdigits, hstop⟩ := exists_append_stop Char.isDigit s
    unfold stoi at h
    simp only [dropWhile_append_stop hspaces hs, hread,
      takeWhile_append_stop hdigits hstop] at h
    split at h
    · cases h
    · rename_i hne
      split at h
      · cases h
      · rename_i hint
        rw [← Except.ok.inj h]
        exact .mk hspaces hsign hne hdigits hstop ⟨by omega, by omega⟩
  · rintro ⟨hspaces, hsign, hne, hdigits, hrest, hint⟩
    rename_i spaces sign digits rest factor
    have hfirst : ∀ d ∈ (digits ++ rest).head?, d ≠ '-' ∧ d ≠ '+' := by
      obtain ⟨d, digits, rfl⟩ := List.exists_cons_of_ne_nil hne
      obtain ⟨-, hminus, hplus, -⟩ := ne_of_isDigit (hdigits d (by simp))
      simp [hminus, hplus]
    unfold stoi
    simp only [dropWhile_append_stop hspaces (isSpace_head hsign hne hdigits),
      readSign_append hsign hfirst, takeWhile_append_stop hdigits hrest, hne, ↓reduceIte]
    rw [if_neg (by unfold IsInt at hint; omega)]

/-- What is behind a character that is no space, sign or digit is not read. -/
theorem stoi_append_cons {rest : List Char} (hspace : isSpace c = false) (hminus : c ≠ '-')
    (hplus : c ≠ '+') (hdigit : c.isDigit = false) : stoi (s ++ c :: rest) = stoi s := by
  have hread : ∀ t, readSign (t ++ c :: rest) = ((readSign t).1, (readSign t).2 ++ c :: rest) := by
    intro t
    cases t with
    | nil => exact readSign_append .none (by simp [hminus, hplus])
    | cons d t =>
      rcases eq_or_ne d '-' with rfl | hd
      · rfl
      · rcases eq_or_ne d '+' with rfl | hd'
        · rfl
        · have hnone : ∀ u, readSign (d :: u) = (1, d :: u) := fun u =>
            readSign_append .none (by simp [hd, hd'])
          rw [List.cons_append, hnone, hnone, List.cons_append]
  unfold stoi
  simp only [dropWhile_append_cons hspace, hread, takeWhile_append_cons hdigit]

end Stoi

/-! ## Numbers and nothing else -/

section Integer

variable {s : List Char} {c : Char} {n : Int}

theorem isDigit_of_isSpace (hspace : isSpace c = true) : c.isDigit = false := by
  by_contra hdigit
  rw [(ne_of_isDigit (by simpa using hdigit)).1] at hspace
  cases hspace

/-- `stoi` reads a number that stands alone. -/
theorem Integer.numeral (h : Integer s n) : Numeral s n := by
  obtain ⟨hspaces, hsign, hne, hdigits, htrailing, hint⟩ := h
  exact .mk hspaces hsign hne hdigits
    (fun c hc => isDigit_of_isSpace (htrailing c (List.mem_of_mem_head? hc))) hint

theorem Integer.ne_nil (h : Integer s n) : s ≠ [] := by
  obtain ⟨-, -, hne, -⟩ := h
  simp [hne]

/-- There is no separator in a number. -/
theorem Integer.notMem (h : Integer s n) (hc : c ∈ [',', ':', '%']) : c ∉ s := by
  obtain ⟨hspaces, hsign, -, hdigits, htrailing, -⟩ := h
  have hspace : isSpace c = false := by
    simp only [List.mem_cons, List.not_mem_nil, or_false] at hc
    rcases hc with rfl | rfl | rfl <;> decide
  have hdigit : c.isDigit = false := by
    simp only [List.mem_cons, List.not_mem_nil, or_false] at hc
    rcases hc with rfl | rfl | rfl <;> decide
  simp only [List.mem_append, not_or]
  refine ⟨fun hmem => ?_, fun hmem => ?_, fun hmem => ?_, fun hmem => ?_⟩
  · simp [hspaces c hmem] at hspace
  · cases hsign <;> simp_all
  · simp [hdigits c hmem] at hdigit
  · simp [htrailing c hmem] at hspace

end Integer

/-! ## Printed numbers -/

theorem digitsValue_toDigits (n : ℕ) : digitsValue (Nat.toDigits 10 n) = n :=
  Nat.ofDigitChars_ten_toDigits

theorem isDigit_of_mem_toDigits {n : ℕ} {c : Char} (hc : c ∈ Nat.toDigits 10 n) :
    c.isDigit = true :=
  Nat.isDigit_of_mem_toDigits (by omega) (by omega) hc

/-- A printed number is a sign and its digits. -/
theorem exists_toList_toString (n : Int) :
    ∃ sign factor digits, Sign sign factor ∧ digits ≠ [] ∧
      (∀ c ∈ digits, c.isDigit = true) ∧ (toString n).toList = sign ++ digits ∧
        n = factor * digitsValue digits := by
  cases n with
  | ofNat m =>
    refine ⟨[], 1, Nat.toDigits 10 m, .none, Nat.toDigits_ne_nil,
      fun c => isDigit_of_mem_toDigits, Nat.toList_repr, ?_⟩
    rw [digitsValue_toDigits, Int.one_mul]
    rfl
  | negSucc m =>
    refine ⟨['-'], -1, Nat.toDigits 10 (m + 1), .minus, Nat.toDigits_ne_nil,
      fun c => isDigit_of_mem_toDigits, ?_, ?_⟩
    · change ("-" ++ (m + 1).repr).toList = _
      rw [String.toList_append, Nat.toList_repr]
      rfl
    · rw [digitsValue_toDigits]
      omega

/-- **`stoi` reads a printed number back.** -/
theorem numeral_toString {n : Int} (hn : IsInt n) : Numeral (toString n).toList n := by
  obtain ⟨sign, factor, digits, hsign, hne, hdigits, hlist, rfl⟩ := exists_toList_toString n
  have h : Numeral ([] ++ (sign ++ (digits ++ []))) (factor * digitsValue digits) :=
    .mk (by simp) hsign hne hdigits (by simp) hn
  rwa [List.append_nil, List.nil_append, ← hlist] at h

/-- A printed number is not empty, and has no separator in it. -/
theorem free_toString (n : Int) :
    (toString n).toList ≠ [] ∧ ∀ c ∈ [',', ':', '%'], c ∉ (toString n).toList := by
  obtain ⟨sign, factor, digits, hsign, hne, hdigits, hlist, -⟩ := exists_toList_toString n
  rw [hlist]
  refine ⟨by simp [hne], fun c hc hmem => ?_⟩
  rcases List.mem_append.1 hmem with hsgn | hdigit
  · cases hsign <;> simp_all
  · obtain ⟨-, -, -, hcomma, hcolon, hpercent⟩ := ne_of_isDigit (hdigits c hdigit)
    simp [hcomma, hcolon, hpercent] at hc

/-- Only a natural number is printed as one. -/
theorem toString_eq_repr_iff {n : Int} {k : ℕ} : toString n = k.repr ↔ n = k := by
  cases n with
  | ofNat m =>
    have hrepr : m.repr = k.repr ↔ m = k := Nat.repr_inj
    exact hrepr.trans Int.ofNat_inj.symm
  | negSucc m =>
    refine iff_of_false (fun h => ?_) (by simp)
    have hminus : '-' ∈ Nat.toDigits 10 k := by
      rw [← Nat.toList_repr, ← h]
      change '-' ∈ ("-" ++ (m + 1).repr).toList
      simp
    exact absurd (isDigit_of_mem_toDigits hminus) (by decide)

/-! ## What `split` finds -/

section Split

variable {seperator s : List Char} {pieces : List (List Char)}

theorem splitLoop_of_separators (h : ∀ c ∈ s, c ∈ seperator) : splitLoop seperator s = [] := by
  have hstart : s.dropWhile (· ∈ seperator) = [] := by simpa using h
  rw [splitLoop]
  split
  · rfl
  · simp only [hstart, List.takeWhile_nil, List.dropWhile_nil, ↓reduceIte]
    rw [splitLoop, dif_pos rfl]

theorem splitLoop_append {lead piece rest : List Char} (hlead : ∀ c ∈ lead, c ∈ seperator)
    (hne : piece ≠ []) (hfree : ∀ c ∈ piece, c ∉ seperator)
    (hrest : ∀ c ∈ rest.head?, c ∈ seperator) :
    splitLoop seperator (lead ++ piece ++ rest) = piece :: splitLoop seperator rest := by
  have hfirst : ∀ c ∈ (piece ++ rest).head?, decide (c ∈ seperator) = false := by
    obtain ⟨c, piece, rfl⟩ := List.exists_cons_of_ne_nil hne
    simpa using hfree c (by simp)
  have hstart : (lead ++ piece ++ rest).dropWhile (· ∈ seperator) = piece ++ rest := by
    rw [List.append_assoc]
    exact dropWhile_append_stop (by simpa using hlead) hfirst
  have htake : (piece ++ rest).takeWhile (· ∉ seperator) = piece :=
    takeWhile_append_stop (by simpa using hfree) (by simpa using hrest)
  have hdrop : (piece ++ rest).dropWhile (· ∉ seperator) = rest :=
    dropWhile_append_stop (by simpa using hfree) (by simpa using hrest)
  rw [splitLoop, dif_neg (by simp [hne])]
  simp only [hstart, htake, hdrop, hne, ↓reduceIte]

/-- **The pieces that `split` finds.** -/
theorem splitLoop_eq_iff : splitLoop seperator s = pieces ↔ Pieces seperator s pieces := by
  constructor
  · rintro rfl
    induction s using splitLoop.induct seperator with
    | case1 =>
      rw [splitLoop, dif_pos rfl]
      exact .nil (by simp)
    | case2 s hs start piece rest hempty ih =>
      -- only separators are left
      have hstart : start = [] := by
        by_contra hne
        obtain ⟨c, t, hct⟩ := List.exists_cons_of_ne_nil hne
        have hc := List.head?_dropWhile_not (· ∈ seperator) s
        rw [show s.dropWhile (· ∈ seperator) = c :: t from hct] at hc
        have hfree : c ∉ seperator := by simpa using hc
        simp [piece, hct, hfree] at hempty
      have hall : ∀ c ∈ s, c ∈ seperator := by
        simpa [start] using hstart
      rw [splitLoop_of_separators hall]
      exact .nil hall
    | case3 s hs start piece rest hne ih =>
      have hsplit : s = s.takeWhile (· ∈ seperator) ++ piece ++ rest := by
        rw [List.append_assoc, List.takeWhile_append_dropWhile, List.takeWhile_append_dropWhile]
      have hlead : ∀ c ∈ s.takeWhile (· ∈ seperator), c ∈ seperator := fun c hc => by
        simpa using List.mem_takeWhile_imp hc
      have hfree : ∀ c ∈ piece, c ∉ seperator := fun c hc => by
        simpa using List.mem_takeWhile_imp hc
      have hrest : ∀ c ∈ rest.head?, c ∈ seperator := fun c hc => by
        have hstop := List.head?_dropWhile_not (· ∉ seperator) start
        rw [show (start.dropWhile (· ∉ seperator)).head? = some c from hc] at hstop
        simpa using hstop
      have hcons := Pieces.cons hlead hne hfree hrest ih
      rw [← splitLoop_append hlead hne hfree hrest] at hcons
      rwa [← hsplit] at hcons
  · intro h
    induction h with
    | nil hlead => exact splitLoop_of_separators hlead
    | cons hlead hne hfree hrest _ ih => rw [splitLoop_append hlead hne hfree hrest, ih]

end Split

end TPST
