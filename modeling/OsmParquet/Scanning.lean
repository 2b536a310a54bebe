import Mathlib.Data.Bool.AllAny
import Mathlib.Data.List.TakeWhile
import Mathlib.Tactic.Common

/-!
Cutting a text into tokens from left to right.

What a letter, a digit or a space is differs outside ASCII; a lexer is given it. A step looks at
what is left of the text and either skips characters or reads a token; the loop repeats it until
the text ends. Symbols are one or two characters, and two are tried first.
-/

namespace OsmParquet.Scanning

/-- What characters are, and how messages show them. ASCII is fixed, and no letter or digit is a
space. -/
structure CharClasses where
  isdigit : Char → Bool
  isalpha : Char → Bool
  isalnum : Char → Bool
  isspace : Char → Bool
  repr : Char → String
  isdigit_ascii : ∀ c : Char, c.toNat < 128 → isdigit c = c.isDigit
  isalpha_ascii : ∀ c : Char, c.toNat < 128 → isalpha c = c.isAlpha
  isalnum_ascii : ∀ c : Char, c.toNat < 128 → isalnum c = c.isAlphanum
  isspace_ascii : ∀ c : Char, c.toNat < 128 →
    isspace c = decide (c.toNat ∈ [9, 10, 11, 12, 13, 28, 29, 30, 31, 32])
  not_isspace : ∀ c : Char, isdigit c || isalpha c || isalnum c → isspace c = false

/-- Letters and digits of ASCII come after its spaces. -/
lemma le_of_alphanumeric {c : Char} (h : c.isDigit || c.isAlpha || c.isAlphanum) :
    48 ≤ c.toNat := by
  delta Char.isAlphanum Char.isAlpha Char.isDigit Char.isUpper Char.isLower at h
  simp only [ge_iff_le, UInt32.le_iff_toNat_le, Bool.or_eq_true, Bool.and_eq_true,
    decide_eq_true_eq] at h
  have e : c.toNat = c.val.toNat := rfl
  have e0 : '0'.val.toNat = 48 := rfl
  have ea : 'a'.val.toNat = 97 := rfl
  have eA : 'A'.val.toNat = 65 := rfl
  omega

/-- Letters, digits and spaces of ASCII only. -/
def asciiClasses : CharClasses where
  isdigit := Char.isDigit
  isalpha := Char.isAlpha
  isalnum := Char.isAlphanum
  isspace c := decide (c.toNat ∈ [9, 10, 11, 12, 13, 28, 29, 30, 31, 32])
  repr c := s!"'{c}'"
  isdigit_ascii _ _ := rfl
  isalpha_ascii _ _ := rfl
  isalnum_ascii _ _ := rfl
  isspace_ascii _ _ := rfl
  not_isspace := by
    intro c h
    have hle := le_of_alphanumeric h
    simp only [List.mem_cons, List.not_mem_nil, or_false, decide_eq_false_iff_not]
    omega

/-- The characters between tokens. -/
def blank (c : Char) : Bool := c = ' ' || c = '\t' || c = '\r' || c = '\n'

def wordChar (cc : CharClasses) (c : Char) : Bool := cc.isalnum c || c = '_'

/-- The characters of a number at the beginning of a text: digits, and a point with digits. -/
def numberLength (cc : CharClasses) (s : List Char) : ℕ :=
  let k := (s.takeWhile cc.isdigit).length
  match s.drop k with
  | '.' :: d :: rest => if cc.isdigit d then k + 1 +
    ((d :: rest).takeWhile cc.isdigit).length else k
  | _ => k

/-- The characters of a word: the first one, and what follows it. -/
def wordLength (cc : CharClasses) : List Char → ℕ
  | [] => 0
  | _ :: rest => 1 + (rest.takeWhile (wordChar cc)).length

/-- The symbols of a language: pairs of characters, and single ones. -/
structure Symbols (σ : Type) where
  double : Char → Char → Option σ
  single : Char → Option σ

/-- The symbol at the beginning of a text, and its length. -/
def Symbols.read {σ : Type} (symbols : Symbols σ) : List Char → Option (σ × ℕ)
  | [] => none
  | [c] => (symbols.single c).map fun x => (x, 1)
  | c :: d :: _ =>
    match symbols.double c d with
    | some x => some (x, 2)
    | none => (symbols.single c).map fun x => (x, 1)

/-- A step at an offset: a token or nothing, and how many characters it takes. -/
abbrev Step (ε τ : Type) := ℕ → List Char → Except ε (Option τ × ℕ)

/-- The loop over a text, with a bound on the number of steps. -/
def scanSteps {ε τ : Type} (step : Step ε τ) : ℕ → ℕ → List Char → Except ε (List τ)
  | _, _, [] => .ok []
  | 0, _, _ :: _ => .ok []
  | n + 1, i, c :: rest => do
    let (t, k) ← step i (c :: rest)
    let ts ← scanSteps step n (i + k) ((c :: rest).drop k)
    return t.toList ++ ts

/-- The tokens of a text that begins at an offset. -/
def scan {ε τ : Type} (step : Step ε τ) (i : ℕ) (s : List Char) : Except ε (List τ) :=
  scanSteps step s.length i s

/-- A step takes at least one character. -/
def Progresses {ε τ : Type} (step : Step ε τ) : Prop := ∀ {i s t k}, step i s = .ok (t, k) → 1 ≤ k

/-! ### The loop -/

section Loop

variable {ε τ : Type} {step : Step ε τ}

@[simp] lemma scan_nil (i : ℕ) : scan step i [] = .ok [] := rfl

/-- More steps than characters change nothing. -/
lemma scanSteps_eq (hp : Progresses step) {n m i : ℕ} {s : List Char} (hn : s.length ≤ n)
    (hm : s.length ≤ m) : scanSteps step n i s = scanSteps step m i s := by
  induction n generalizing m i s with
  | zero =>
    rw [List.eq_nil_of_length_eq_zero (Nat.le_zero.mp hn), scanSteps, scanSteps]
  | succ n ih =>
    rcases s with _ | ⟨c, rest⟩
    · rw [scanSteps, scanSteps]
    rcases m with _ | m
    · cases hm
    rw [scanSteps, scanSteps]
    rcases hstep : step i (c :: rest) with e | ⟨t, k⟩
    · rfl
    have hk := hp hstep
    have hlen : ((c :: rest).drop k).length ≤ n ∧ ((c :: rest).drop k).length ≤ m := by
      rw [List.length_drop]
      rw [List.length_cons] at hn hm ⊢
      omega
    show (scanSteps step n (i + k) _ >>= _) = (scanSteps step m (i + k) _ >>= _)
    rw [ih hlen.1 hlen.2]

/-- **One step of the loop.** -/
lemma scan_cons (hp : Progresses step) (i : ℕ) (c : Char) (rest : List Char) :
    scan step i (c :: rest) = (step i (c :: rest)).bind fun tk =>
      (scan step (i + tk.2) ((c :: rest).drop tk.2)).map (tk.1.toList ++ ·) := by
  rw [scan, List.length_cons, scanSteps]
  rcases hstep : step i (c :: rest) with e | ⟨t, k⟩
  · rfl
  have hk := hp hstep
  have hlen : ((c :: rest).drop k).length ≤ rest.length := by
    rw [List.length_drop, List.length_cons]
    omega
  show (scanSteps step rest.length (i + k) _ >>= _) = _
  rw [scanSteps_eq hp hlen le_rfl]
  show _ = (scanSteps step _ (i + k) ((c :: rest).drop k)).map _
  cases scanSteps step ((c :: rest).drop k).length (i + k) ((c :: rest).drop k) <;> rfl

lemma scan_of_step (hp : Progresses step) {i k : ℕ} {c : Char} {rest : List Char} {t : Option τ}
    (h : step i (c :: rest) = .ok (t, k)) :
    scan step i (c :: rest) = (scan step (i + k) ((c :: rest).drop k)).map (t.toList ++ ·) := by
  rw [scan_cons hp, h]
  rfl

/-- What a loop that succeeds has done first. -/
lemma scan_ok_cons (hp : Progresses step) {i : ℕ} {c : Char} {rest : List Char} {ts : List τ}
    (h : scan step i (c :: rest) = .ok ts) : ∃ t k ts', step i (c :: rest) = .ok (t, k) ∧ 1 ≤ k ∧
      scan step (i + k) ((c :: rest).drop k) = .ok ts' ∧ ts = t.toList ++ ts' := by
  rw [scan_cons hp] at h
  rcases hstep : step i (c :: rest) with e | ⟨t, k⟩
  · rw [hstep] at h
    cases h
  rw [hstep] at h
  change (scan step (i + k) ((c :: rest).drop k)).map _ = _ at h
  rcases hrest : scan step (i + k) ((c :: rest).drop k) with e | ts'
  · rw [hrest] at h
    cases h
  rw [hrest] at h
  exact ⟨t, k, ts', rfl, hp hstep, hrest, (Except.ok.inj h).symm⟩

/-- **What holds along the steps of a loop that succeeds** holds of what it returns. -/
lemma scan_induction (hp : Progresses step) {motive : ℕ → List Char → List τ → Prop}
    (nil : ∀ i, motive i [] [])
    (cons : ∀ {i c rest t k ts}, step i (c :: rest) = .ok (t, k) → 1 ≤ k →
      motive (i + k) ((c :: rest).drop k) ts → motive i (c :: rest) (t.toList ++ ts))
    {i : ℕ} {s : List Char} {ts : List τ} (h : scan step i s = .ok ts) : motive i s ts := by
  induction hn : s.length using Nat.strong_induction_on generalizing s i ts with
  | _ n ih =>
    subst hn
    rcases s with _ | ⟨c, rest⟩
    · cases h
      exact nil i
    obtain ⟨t, k, ts', hstep, hk, hrest, rfl⟩ := scan_ok_cons @hp h
    have hlt : ((c :: rest).drop k).length < (c :: rest).length := by
      rw [List.length_drop, List.length_cons]
      omega
    exact cons hstep hk (ih _ hlt hrest rfl)

/-- The steps of the loop from an offset to another one, with the text that is left there. -/
inductive Reaches (step : Step ε τ) : ℕ → List Char → ℕ → List Char → Prop
  | here (i : ℕ) (s : List Char) : Reaches step i s i s
  | next {i k j : ℕ} {c : Char} {rest s : List Char} {t : Option τ}
    (hstep : step i (c :: rest) = .ok (t, k))
      (hreaches : Reaches step (i + k) ((c :: rest).drop k) j s) : Reaches step i (c :: rest) j s

lemma Reaches.drop {i j : ℕ} {s r : List Char} (h : Reaches step i s j r) :
    ∃ k, j = i + k ∧ r = s.drop k := by
  induction h with
  | here i s => exact ⟨0, rfl, rfl⟩
  | @next i k j c rest s t _ _ ih =>
    obtain ⟨l, rfl, rfl⟩ := ih
    exact ⟨k + l, Nat.add_assoc i k l, by rw [List.drop_drop]⟩

/-- **A loop fails where one of its steps does.** -/
lemma scan_error_iff (hp : Progresses step) {i : ℕ} {s : List Char} {e : ε} :
    scan step i s = .error e ↔ ∃ j c r, Reaches step i s j (c :: r) ∧
      step j (c :: r) = .error e := by
  constructor
  · intro h
    induction hn : s.length using Nat.strong_induction_on generalizing s i with
    | _ n ih =>
      subst hn
      rcases s with _ | ⟨c, rest⟩
      · cases h
      rcases hstep : step i (c :: rest) with e' | ⟨t, k⟩
      · rw [scan_cons @hp, hstep] at h
        cases h
        exact ⟨i, c, rest, .here _ _, hstep⟩
      have hk := hp hstep
      have hlt : ((c :: rest).drop k).length < (c :: rest).length := by
        rw [List.length_drop, List.length_cons]
        omega
      rw [scan_of_step @hp hstep] at h
      rcases hrest : scan step (i + k) ((c :: rest).drop k) with e' | ts
      · rw [hrest] at h
        cases h
        obtain ⟨j, d, r, hreaches, herror⟩ := ih _ hlt hrest rfl
        exact ⟨j, d, r, .next hstep hreaches, herror⟩
      · rw [hrest] at h
        cases h
  · rintro ⟨j, c, r, hreaches, herror⟩
    generalize hs : c :: r = u at hreaches herror
    induction hreaches with
    | here i s =>
      subst hs
      rw [scan_cons @hp, herror]
      rfl
    | next hstep _ ih =>
      rw [scan_of_step @hp hstep, ih hs herror]
      rfl

end Loop

/-! ### Words and numbers -/

section Words

variable {cc : CharClasses} {s tail : List Char} {c : Char}

/-- What does not go on past the end of a text. -/
lemma takeWhile_append_stop {p : Char → Bool} (h : ∀ c ∈ tail.head?, p c = false) :
    (s ++ tail).takeWhile p = s.takeWhile p := by
  induction s with
  | nil =>
    rcases tail with _ | ⟨c, tail⟩
    · rfl
    · rw [List.nil_append, List.takeWhile_cons_of_neg (by simp [h c rfl]), List.takeWhile_nil]
  | cons a s ih =>
    rw [List.cons_append, List.takeWhile_cons, List.takeWhile_cons, ih]

/-- The characters of words and numbers. -/
def textual (cc : CharClasses) (c : Char) : Bool :=
  cc.isdigit c || cc.isalpha c || cc.isalnum c || c = '_' || c = '.'

/-- The characters of ASCII that are in no word or number. -/
def marks : List Char :=
  [' ', '\t', '\r', '\n', '\x22', '\x27', '\\', '(', ')', '[', ']', '{', '}', ';', ',',
    ':', '=', '~', '!', '<', '>', '-', '+', '*', '/', '&', '|', '?']

lemma textual_of_mem_marks (h : c ∈ marks) : textual cc c = false := by
  have hall : ∀ c ∈ marks, c.toNat < 128 ∧
      (c.isDigit || c.isAlpha || c.isAlphanum || c = '_' || c = '.') = false :=
    List.all_iff_forall_prop.mp (by decide)
  obtain ⟨hlt, hascii⟩ := hall c h
  rw [textual, cc.isdigit_ascii c hlt, cc.isalpha_ascii c hlt, cc.isalnum_ascii c hlt]
  exact hascii

lemma textual_ne (h : textual cc c = true) {d : Char} (hd : d ∈ marks) : c ≠ d := by
  rintro rfl
  rw [textual_of_mem_marks hd] at h
  cases h

lemma isspace_of_textual (h : textual cc c = true) : cc.isspace c = false := by
  simp only [textual, Bool.or_eq_true, decide_eq_true_eq] at h
  rcases h with (h | rfl) | rfl
  · exact cc.not_isspace c (by simpa using h)
  · rw [cc.isspace_ascii _ (by decide)]
    decide
  · rw [cc.isspace_ascii _ (by decide)]
    decide

lemma numberLength_append (h : ∀ c ∈ tail.head?, cc.isdigit c = false ∧ c ≠ '.') :
    numberLength cc (s ++ tail) = numberLength cc s := by
  have hstop : ∀ c ∈ tail.head?, cc.isdigit c = false := fun c hc => (h c hc).1
  have hle := (s.takeWhile_prefix cc.isdigit).length_le
  rw [numberLength, numberLength, takeWhile_append_stop hstop, List.drop_append_of_le_length hle]
  rcases s.drop (s.takeWhile cc.isdigit).length with _ | ⟨c, _ | ⟨d, r⟩⟩
  · rcases tail with _ | ⟨c, _ | ⟨d, r⟩⟩
    · rfl
    · simp
    · have hne := (h c rfl).2
      simp [hne]
  · rcases tail with _ | ⟨d, r⟩
    · rfl
    · have hd := hstop d rfl
      by_cases hc : c = '.'
      · subst hc
        simp [hd]
      · simp [hc]
  · by_cases hc : c = '.'
    · subst hc
      simp only [List.cons_append]
      rw [← List.cons_append, takeWhile_append_stop hstop]
    · simp [hc]

lemma numberLength_pos (h : cc.isdigit c = true) : 1 ≤ numberLength cc (c :: s) := by
  have hk : 1 ≤ ((c :: s).takeWhile cc.isdigit).length := by
    rw [List.takeWhile_cons_of_pos h, List.length_cons]
    omega
  rw [numberLength]
  split
  · split <;> omega
  · exact hk

/-- A number is digits, and a point and digits. -/
lemma numberLength_take : numberLength cc s ≤ s.length ∧
    ∀ c ∈ s.take (numberLength cc s), textual cc c = true := by
  have hdigits : ∀ (l : List Char), ∀ c ∈ l.takeWhile cc.isdigit, textual cc c = true := by
    intro l c hc
    simp [textual, List.mem_takeWhile_imp hc]
  have htake : s.take (s.takeWhile cc.isdigit).length = s.takeWhile cc.isdigit :=
    (List.prefix_iff_eq_take.mp (s.takeWhile_prefix cc.isdigit)).symm
  have hle := (s.takeWhile_prefix cc.isdigit).length_le
  rw [numberLength]
  split
  case h_1 d rest hdrop =>
    split
    case isTrue hd =>
      set ds := (d :: rest).takeWhile cc.isdigit
      have hds : ds <+: d :: rest := List.takeWhile_prefix _
      have hlen : s.length = (s.takeWhile cc.isdigit).length + (d :: rest).length + 1 := by
        have hlen := congrArg List.length hdrop
        rw [List.length_drop, List.length_cons] at hlen
        omega
      have hread : s.take ((s.takeWhile cc.isdigit).length + 1 + ds.length) =
          s.takeWhile cc.isdigit ++ '.' :: ds := by
        rw [Nat.add_assoc, List.take_add, htake, hdrop, Nat.add_comm 1, List.take_succ_cons,
          ← List.prefix_iff_eq_take.mp hds]
      refine ⟨by have := hds.length_le; omega, ?_⟩
      intro c hc
      rw [hread, List.mem_append, List.mem_cons] at hc
      rcases hc with hc | rfl | hc
      · exact hdigits s c hc
      · simp [textual]
      · exact hdigits _ c hc
    case isFalse hd =>
      rw [htake]
      exact ⟨hle, hdigits s⟩
  case h_2 =>
    rw [htake]
    exact ⟨hle, hdigits s⟩

lemma wordLength_append (h : ∀ c ∈ tail.head?, wordChar cc c = false) (hs : s ≠ []) :
    wordLength cc (s ++ tail) = wordLength cc s := by
  rcases s with _ | ⟨c, s⟩
  · exact absurd rfl hs
  · rw [List.cons_append, wordLength, wordLength, takeWhile_append_stop h]

/-- A word is letters, digits and underscores. -/
lemma wordLength_take (h : cc.isalpha c || c = '_') : wordLength cc (c :: s) ≤ (c :: s).length ∧
    ∀ d ∈ (c :: s).take (wordLength cc (c :: s)), textual cc d = true := by
  have hle := (s.takeWhile_prefix (wordChar cc)).length_le
  rw [wordLength, Nat.add_comm, List.take_succ_cons, List.length_cons,
    ← List.prefix_iff_eq_take.mp (s.takeWhile_prefix (wordChar cc))]
  refine ⟨by omega, ?_⟩
  intro d hd
  rcases List.mem_cons.mp hd with rfl | hd
  · simp only [Bool.or_eq_true, decide_eq_true_eq] at h
    rcases h with h | rfl <;> simp [textual, *]
  · have hword := List.mem_takeWhile_imp hd
    simp only [wordChar, Bool.or_eq_true, decide_eq_true_eq] at hword
    rcases hword with h | rfl <;> simp [textual, *]

end Words

/-! ### Symbols -/

section Symbols

variable {σ : Type} {symbols : Symbols σ} {c d : Char} {s : List Char}

/-- A symbol is one character, or two that make one together. -/
lemma Symbols.read_cases {x : σ} {k : ℕ} (h : symbols.read (c :: s) = some (x, k)) :
    (k = 1 ∧ symbols.single c = some x) ∨
      (k = 2 ∧ ∃ d rest, s = d :: rest ∧ symbols.double c d = some x) := by
  have hone : ∀ {o : Option σ}, (o.map fun x => (x, 1)) = some (x, k) → k = 1 ∧ o = some x := by
    rintro (_ | y) ho
    · cases ho
    · cases ho
      exact ⟨rfl, rfl⟩
  rcases s with _ | ⟨d, rest⟩
  · exact Or.inl (hone h)
  · rw [Symbols.read] at h
    rcases hdouble : symbols.double c d with _ | y
    · rw [hdouble] at h
      exact Or.inl (hone h)
    · rw [hdouble] at h
      cases h
      exact Or.inr ⟨rfl, d, rest, rfl, hdouble⟩

lemma Symbols.read_double {x : σ} (h : symbols.double c d = some x) :
    symbols.read (c :: d :: s) = some (x, 2) := by rw [Symbols.read, h]

lemma Symbols.read_single {x : σ} (hc : symbols.single c = some x)
    (hs : ∀ d ∈ s.head?, symbols.double c d = none) : symbols.read (c :: s) = some (x, 1) := by
  rcases s with _ | ⟨d, rest⟩
  · rw [Symbols.read, hc]
    rfl
  · rw [Symbols.read, hs d rfl, hc]
    rfl

/-- A character that begins no symbol. -/
lemma Symbols.read_none (hc : symbols.single c = none)
    (hs : ∀ d ∈ s.head?, symbols.double c d = none) : symbols.read (c :: s) = none := by
  rcases s with _ | ⟨d, rest⟩
  · rw [Symbols.read, hc]
    rfl
  · rw [Symbols.read, hs d rfl, hc]
    rfl

lemma Symbols.single_none (h : symbols.read (c :: s) = none) : symbols.single c = none := by
  rcases hc : symbols.single c with _ | x
  · rfl
  · rcases s with _ | ⟨d, rest⟩
    · rw [Symbols.read, hc] at h
      cases h
    · rw [Symbols.read, hc] at h
      rcases hd : symbols.double c d with _ | y
      · rw [hd] at h
        cases h
      · rw [hd] at h
        cases h

end Symbols

end OsmParquet.Scanning
