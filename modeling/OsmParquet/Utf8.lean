import Mathlib.Data.Nat.Init
import Mathlib.Tactic.Common

/-!
UTF-8 as web servers and browsers decode it: what is not well formed becomes the replacement
character, one for each longest beginning of a character that breaks off.

The decoder keeps how many bytes the character it is in still needs and the range the next one
must be in. A byte that begins a character always begins one, wherever it comes, so that a text
may be cut before it and decoded in two parts.
-/

namespace OsmParquet.Utf8

/-- The range the next byte must be in: narrower after the bytes `E0`, `ED`, `F0` and `F4`. -/
inductive Tail
  | any
  | afterE0
  | afterED
  | afterF0
  | afterF4
  deriving DecidableEq, Repr

def Tail.lower : Tail → ℕ
  | .afterE0 => 0xA0
  | .afterF0 => 0x90
  | _ => 0x80

def Tail.upper : Tail → ℕ
  | .afterED => 0x9F
  | .afterF4 => 0x8F
  | _ => 0xBF

structure Decoder where
  needed : ℕ
  point : ℕ
  tail : Tail
  deriving DecidableEq, Repr

def idle : Decoder := ⟨0, 0, .any⟩

def replacement : Char := Char.ofNat 0xFFFD

/-- A byte where a character may begin. -/
def lead (b : ℕ) : Decoder × List Char :=
  if b ≤ 0x7F then (idle, [Char.ofNat b])
  else if 0xC2 ≤ b ∧ b ≤ 0xDF then (⟨1, b - 0xC0, .any⟩, [])
  else if 0xE0 ≤ b ∧ b ≤ 0xEF then
    (⟨2, b - 0xE0, if b = 0xE0 then .afterE0 else if b = 0xED then .afterED else .any⟩, [])
  else if 0xF0 ≤ b ∧ b ≤ 0xF4 then
    (⟨3, b - 0xF0, if b = 0xF0 then .afterF0 else if b = 0xF4 then .afterF4 else .any⟩, [])
  else (idle, [replacement])

/-- One byte: what it adds to the text. A byte that cannot go on with the character breaks it off
and is looked at once more. -/
def step (s : Decoder) (b : ℕ) : Decoder × List Char :=
  if s.needed = 0 then lead b
  else if s.tail.lower ≤ b ∧ b ≤ s.tail.upper then
    if s.needed = 1 then (idle, [Char.ofNat (s.point * 64 + (b - 0x80))])
    else (⟨s.needed - 1, s.point * 64 + (b - 0x80), .any⟩, [])
  else ((lead b).1, replacement :: (lead b).2)

def decodeFrom : Decoder → List UInt8 → List Char
  | s, [] => if s.needed = 0 then [] else [replacement]
  | s, b :: bs => (step s b.toNat).2 ++ decodeFrom (step s b.toNat).1 bs

def decode (bs : List UInt8) : List Char := decodeFrom idle bs

def encode (t : List Char) : List UInt8 := t.flatMap String.utf8EncodeChar

/-- A byte that is not in the middle of a character. -/
def Begins (b : UInt8) : Prop := b.toNat < 0x80 ∨ 0xC0 ≤ b.toNat

section

variable {s : Decoder} {b : UInt8} {bs as : List UInt8}

@[simp] lemma decode_nil : decode [] = [] := rfl

lemma decodeFrom_of_begins (hb : Begins b) :
    decodeFrom s (b :: bs) = decodeFrom s [] ++ decode (b :: bs) := by
  have hout : ¬ (s.tail.lower ≤ b.toNat ∧ b.toNat ≤ s.tail.upper) := by
    rcases hb with hb | hb <;> cases s.tail <;> simp only [Tail.lower, Tail.upper] <;> omega
  have hidle : step idle b.toNat = lead b.toNat := rfl
  simp only [decode, decodeFrom, hidle]
  by_cases hs : s.needed = 0
  · simp only [step, hs, if_true, List.nil_append]
  · simp only [step, hs, hout, if_false, List.cons_append, List.nil_append]

/-- **A text may be cut before a byte that begins a character.** -/
lemma decode_append (hb : Begins b) : decode (as ++ b :: bs) = decode as ++ decode (b :: bs) := by
  have hrun : ∀ s, decodeFrom s (as ++ b :: bs) = decodeFrom s as ++ decode (b :: bs) := by
    induction as with
    | nil => exact fun s => decodeFrom_of_begins hb
    | cons a as ih =>
      intro s
      rw [List.cons_append, decodeFrom, decodeFrom, ih, List.append_assoc]
  exact hrun idle

lemma decodeFrom_tail {n p : ℕ} {t : Tail} (h : t.lower ≤ b.toNat ∧ b.toNat ≤ t.upper) :
    decodeFrom ⟨n + 2, p, t⟩ (b :: bs) =
      decodeFrom ⟨n + 1, p * 64 + (b.toNat - 0x80), .any⟩ bs := by
  simp [decodeFrom, step, h]

lemma decodeFrom_last {p : ℕ} {t : Tail} (h : t.lower ≤ b.toNat ∧ b.toNat ≤ t.upper) :
    decodeFrom ⟨1, p, t⟩ (b :: bs) = Char.ofNat (p * 64 + (b.toNat - 0x80)) :: decode bs := by
  simp [decodeFrom, step, h, decode]

lemma decode_ascii (h : b.toNat ≤ 0x7F) : decode (b :: bs) = Char.ofNat b.toNat :: decode bs := by
  simp [decode, decodeFrom, step, idle, lead, h]

lemma decode_two (h : 0xC2 ≤ b.toNat ∧ b.toNat ≤ 0xDF) :
    decode (b :: bs) = decodeFrom ⟨1, b.toNat - 0xC0, .any⟩ bs := by
  have h0 : ¬ b.toNat ≤ 0x7F := by omega
  simp [decode, decodeFrom, step, idle, lead, h, h0]

lemma decode_three (h : 0xE0 ≤ b.toNat ∧ b.toNat ≤ 0xEF) : decode (b :: bs) =
    decodeFrom ⟨2, b.toNat - 0xE0, if b.toNat = 0xE0 then .afterE0
      else if b.toNat = 0xED then .afterED else .any⟩ bs := by
  have h0 : ¬ b.toNat ≤ 0x7F := by omega
  have h1 : ¬ b.toNat ≤ 0xDF := by omega
  simp [decode, decodeFrom, step, idle, lead, h, h0, h1]

lemma decode_four (h : 0xF0 ≤ b.toNat ∧ b.toNat ≤ 0xF4) : decode (b :: bs) =
    decodeFrom ⟨3, b.toNat - 0xF0, if b.toNat = 0xF0 then .afterF0
      else if b.toNat = 0xF4 then .afterF4 else .any⟩ bs := by
  have h0 : ¬ b.toNat ≤ 0x7F := by omega
  have h1 : ¬ b.toNat ≤ 0xDF := by omega
  have h2 : ¬ b.toNat ≤ 0xEF := by omega
  simp [decode, decodeFrom, step, idle, lead, h, h0, h1, h2]

/-- Every character is a code point that is not a surrogate. -/
lemma char_bounds (c : Char) : c.val.toNat < 0xD800 ∨
    (0xDFFF < c.val.toNat ∧ c.val.toNat < 0x110000) :=
  c.valid

lemma toNat_byte {n : ℕ} (h : n < 256) : (UInt8.ofNat n).toNat = n := by
  rw [UInt8.toNat_ofNat', Nat.mod_eq_of_lt h]

/-- **What was encoded is decoded**, whatever follows it. -/
lemma decode_encodeChar (c : Char) (bs : List UInt8) :
    decode (String.utf8EncodeChar c ++ bs) = c :: decode bs := by
  have hc := char_bounds c
  have hback : Char.ofNat c.val.toNat = c := Char.ofNat_toNat c
  unfold String.utf8EncodeChar
  generalize c.val.toNat = v at hc hback ⊢
  simp only
  split
  · have h0 := toNat_byte (n := v) (by omega)
    rw [List.singleton_append, decode_ascii (by omega), h0, hback]
  split
  · have h0 := toNat_byte (n := v / 64 % 32 + 192) (by omega)
    have h1 := toNat_byte (n := v % 64 + 128) (by omega)
    rw [List.cons_append, List.singleton_append, decode_two (by omega),
      decodeFrom_last (by simp only [Tail.lower, Tail.upper]; omega), h0, h1,
      show (v / 64 % 32 + 192 - 192) * 64 + (v % 64 + 128 - 128) = v by omega, hback]
  split
  · have h0 := toNat_byte (n := v / 4096 % 16 + 224) (by omega)
    have h1 := toNat_byte (n := v / 64 % 64 + 128) (by omega)
    have h2 := toNat_byte (n := v % 64 + 128) (by omega)
    rw [List.cons_append, List.cons_append, List.singleton_append, decode_three (by omega), h0]
    -- the second byte is in the narrower range after `E0` and `ED`
    rw [decodeFrom_tail (by
      rw [h1]
      split
      · simp only [Tail.lower, Tail.upper]; omega
      split
      · simp only [Tail.lower, Tail.upper]; omega
      · simp only [Tail.lower, Tail.upper]; omega)]
    rw [decodeFrom_last (by simp only [Tail.lower, Tail.upper]; omega), h1, h2,
      show ((v / 4096 % 16 + 224 - 224) * 64 + (v / 64 % 64 + 128 - 128)) * 64 +
        (v % 64 + 128 - 128) = v by omega, hback]
  · have h0 := toNat_byte (n := v / 262144 % 8 + 240) (by omega)
    have h1 := toNat_byte (n := v / 4096 % 64 + 128) (by omega)
    have h2 := toNat_byte (n := v / 64 % 64 + 128) (by omega)
    have h3 := toNat_byte (n := v % 64 + 128) (by omega)
    rw [List.cons_append, List.cons_append, List.cons_append, List.singleton_append,
      decode_four (by omega), h0]
    rw [decodeFrom_tail (by
      rw [h1]
      split
      · simp only [Tail.lower, Tail.upper]; omega
      split
      · simp only [Tail.lower, Tail.upper]; omega
      · simp only [Tail.lower, Tail.upper]; omega)]
    rw [decodeFrom_tail (by simp only [Tail.lower, Tail.upper]; omega),
      decodeFrom_last (by simp only [Tail.lower, Tail.upper]; omega), h1, h2, h3,
      show (((v / 262144 % 8 + 240 - 240) * 64 + (v / 4096 % 64 + 128 - 128)) * 64 +
        (v / 64 % 64 + 128 - 128)) * 64 + (v % 64 + 128 - 128) = v by omega, hback]

@[simp] lemma encode_nil : encode [] = [] := rfl

@[simp] lemma encode_cons (c : Char) (t : List Char) :
    encode (c :: t) = String.utf8EncodeChar c ++ encode t := rfl

lemma encode_append (u v : List Char) : encode (u ++ v) = encode u ++ encode v :=
  List.flatMap_append

/-- **A text survives its encoding.** -/
lemma decode_encode (t : List Char) : decode (encode t) = t := by
  induction t with
  | nil => rfl
  | cons c t ih => rw [encode_cons, decode_encodeChar, ih]

/-- The bytes of a character: itself, or none of them ASCII and the first one begins it. -/
lemma encodeChar_ascii {c : Char} (h : c.val.toNat < 0x80) :
    String.utf8EncodeChar c = [UInt8.ofNat c.val.toNat] := by
  unfold String.utf8EncodeChar
  rw [if_pos (by omega)]

lemma encodeChar_other {c : Char} (h : 0x80 ≤ c.val.toNat) :
    ∃ b bs, String.utf8EncodeChar c = b :: bs ∧ 0xC0 ≤ b.toNat ∧ ∀ x ∈ b :: bs, 0x80 ≤ x.toNat := by
  have hc := char_bounds c
  unfold String.utf8EncodeChar
  generalize c.val.toNat = v at hc h ⊢
  have htail : ∀ n, 0x80 ≤ (UInt8.ofNat (n % 64 + 128)).toNat := by
    intro n
    rw [toNat_byte (by omega)]
    omega
  simp only
  rw [if_neg (by omega)]
  split
  · refine ⟨_, _, rfl, ?_, ?_⟩
    · rw [toNat_byte (by omega)]; omega
    · simp only [List.forall_mem_cons, htail, true_and]
      exact ⟨by rw [toNat_byte (by omega)]; omega, by simp⟩
  split
  · refine ⟨_, _, rfl, ?_, ?_⟩
    · rw [toNat_byte (by omega)]; omega
    · simp only [List.forall_mem_cons, htail, true_and]
      exact ⟨by rw [toNat_byte (by omega)]; omega, by simp⟩
  · refine ⟨_, _, rfl, ?_, ?_⟩
    · rw [toNat_byte (by omega)]; omega
    · simp only [List.forall_mem_cons, htail, true_and]
      exact ⟨by rw [toNat_byte (by omega)]; omega, by simp⟩

end

end OsmParquet.Utf8
