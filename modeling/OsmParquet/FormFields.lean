import OsmParquet.Utf8

/-!
The fields of a form, as a browser's parser and as Python's parser read them.

The first works on bytes: it cuts at the separators, decodes the percent signs of a name or a
value and then the whole as UTF-8. The second works on characters: it decodes the runs of ASCII
characters one by one and leaves every other character as it is. Both read the same fields from
every text.
-/

namespace OsmParquet.FormFields

open OsmParquet.Utf8

abbrev Text := List Char

/-! ### Percent signs -/

def hexDigit (b : UInt8) : Option ℕ :=
  if 0x30 ≤ b.toNat ∧ b.toNat ≤ 0x39 then some (b.toNat - 0x30)
  else if 0x41 ≤ b.toNat ∧ b.toNat ≤ 0x46 then some (b.toNat - 0x41 + 10)
  else if 0x61 ≤ b.toNat ∧ b.toNat ≤ 0x66 then some (b.toNat - 0x61 + 10)
  else none

def hexPair (h l : UInt8) : Option UInt8 :=
  (hexDigit h).bind fun x => (hexDigit l).map fun y => UInt8.ofNat (16 * x + y)

/-- The browser's way: a percent sign with two digits after it is a byte. -/
def percentDecode : List UInt8 → List UInt8
  | b :: h :: l :: rest =>
    if b = 0x25 then
      match hexPair h l with
      | some v => v :: percentDecode rest
      | none => b :: percentDecode (h :: l :: rest)
    else b :: percentDecode (h :: l :: rest)
  | bs => bs

/-- What follows a percent sign up to the next one. -/
def unquoteItem : List UInt8 → List UInt8
  | h :: l :: rest =>
    match hexPair h l with
    | some v => v :: rest
    | none => 0x25 :: h :: l :: rest
  | item => 0x25 :: item

/-- Python's way: cut at the percent signs, and look at the beginning of every item but the
first. -/
def unquoteToBytes (bs : List UInt8) : List UInt8 :=
  match bs.splitOn 0x25 with
  | [] => []
  | first :: items => first ++ items.flatMap unquoteItem

/-- The runs of ASCII characters are decoded apart from each other; `run` is the one so far. -/
def unquoteRuns (run : Text) : Text → Text
  | [] => decode (unquoteToBytes (encode run))
  | c :: cs =>
    if c.val.toNat < 0x80 then unquoteRuns (run ++ [c]) cs
    else decode (unquoteToBytes (encode run)) ++ c :: unquoteRuns [] cs

def unquote (t : Text) : Text := if '%' ∈ t then unquoteRuns [] t else t

/-! ### Fields -/

/-- The form parser of the browser. -/
def parseUrlencoded (bs : List UInt8) : List (Text × Text) :=
  ((bs.splitOn 0x26).filter (· ≠ [])).map fun seq =>
    let read (part : List UInt8) :=
      decode (percentDecode (part.map fun b => if b = 0x2B then 0x20 else b))
    (read (seq.takeWhile (· ≠ 0x3D)), read ((seq.dropWhile (· ≠ 0x3D)).drop 1))

/-- One name and value of Python's parser; a missing value is blank. -/
def readField (nameValue : Text) : Text × Text :=
  let read (part : Text) := unquote (part.map fun c => if c = '+' then ' ' else c)
  (read (nameValue.takeWhile (· ≠ '=')), read ((nameValue.dropWhile (· ≠ '=')).drop 1))

def fieldsOf (segments : List Text) : List (Text × Text) :=
  (segments.filter (· ≠ [])).map readField

/-- The form parser of Python, blank values kept. -/
def parseQsl (qs : Text) : List (Text × Text) := fieldsOf (qs.splitOn '&')

/-! ### Bytes and characters -/

section Bytes

variable {c sep : Char} {t : Text} {as bs : List UInt8} {b : UInt8}

/-- An ASCII character as a byte. -/
def byteOf (c : Char) : UInt8 := UInt8.ofNat c.val.toNat

lemma encodeChar_byteOf (hs : sep.val.toNat < 0x80) : String.utf8EncodeChar sep = [byteOf sep] :=
  encodeChar_ascii hs

/-- The byte of an ASCII character is in no other character. -/
lemma byteOf_not_mem (sep : Char) (hs : sep.val.toNat < 0x80) (h : c ≠ sep) :
    byteOf sep ∉ String.utf8EncodeChar c := by
  have hb : (byteOf sep).toNat = sep.val.toNat := toNat_byte (by omega)
  intro hmem
  rcases Nat.lt_or_ge c.val.toNat 0x80 with hc | hc
  · rw [encodeChar_ascii hc, List.mem_singleton] at hmem
    have heq := congrArg UInt8.toNat hmem
    rw [hb, toNat_byte (by omega)] at heq
    exact h (Char.ext (UInt32.toNat_inj.mp heq.symm))
  · obtain ⟨x, xs, henc, -, hall⟩ := encodeChar_other hc
    have := hall _ (henc ▸ hmem)
    omega

lemma encode_eq_nil : encode t = [] ↔ t = [] := by
  rcases t with _ | ⟨c, t⟩
  · simp
  · simp

lemma splitOn_append_of_not_mem (h : b ∉ as) :
    (as ++ bs).splitOn b = (bs.splitOn b).modifyHead (as ++ ·) := by
  induction as with
  | nil =>
    obtain ⟨w, ws, hw⟩ := List.exists_cons_of_ne_nil (List.splitOn_ne_nil b bs)
    simp [hw]
  | cons a as ih =>
    obtain ⟨ha, has⟩ := not_or.mp (List.mem_cons.not.mp h)
    obtain ⟨w, ws, hw⟩ := List.exists_cons_of_ne_nil (List.splitOn_ne_nil b bs)
    have hne : (a == b) = false := by simpa using Ne.symm ha
    rw [List.cons_append, List.splitOn_cons_eq_if_modifyHead, ih has, hw]
    simp [hne]

/-- Cutting at a separator before and after encoding. -/
lemma splitOn_encode (hs : sep.val.toNat < 0x80) (t : Text) :
    (encode t).splitOn (byteOf sep) = (t.splitOn sep).map encode := by
  induction t with
  | nil => rfl
  | cons c t ih =>
    obtain ⟨w, ws, hw⟩ := List.exists_cons_of_ne_nil (List.splitOn_ne_nil sep t)
    rw [encode_cons, List.splitOn_cons_eq_if_modifyHead]
    by_cases h : c = sep
    · subst h
      rw [encodeChar_byteOf hs, List.singleton_append, List.splitOn_cons_eq_if_modifyHead, ih]
      simp
    · rw [splitOn_append_of_not_mem (byteOf_not_mem sep hs h), ih, hw]
      simp [h]

lemma takeWhile_append_of_not_mem (h : b ∉ as) :
    (as ++ bs).takeWhile (· ≠ b) = as ++ bs.takeWhile (· ≠ b) := by
  refine List.takeWhile_append_of_pos fun x hx => decide_eq_true ?_
  rintro rfl
  exact h hx

lemma dropWhile_append_of_not_mem (h : b ∉ as) :
    (as ++ bs).dropWhile (· ≠ b) = bs.dropWhile (· ≠ b) := by
  refine List.dropWhile_append_of_pos fun x hx => decide_eq_true ?_
  rintro rfl
  exact h hx

lemma takeWhile_encode (hs : sep.val.toNat < 0x80) (t : Text) :
    (encode t).takeWhile (· ≠ byteOf sep) = encode (t.takeWhile (· ≠ sep)) := by
  induction t with
  | nil => rfl
  | cons c t ih =>
    by_cases h : c = sep
    · subst h
      simp [encodeChar_byteOf hs]
    · rw [encode_cons, takeWhile_append_of_not_mem (byteOf_not_mem sep hs h), ih]
      simp [h]

lemma dropWhile_encode (hs : sep.val.toNat < 0x80) (t : Text) :
    ((encode t).dropWhile (· ≠ byteOf sep)).drop 1 = encode ((t.dropWhile (· ≠ sep)).drop 1) := by
  induction t with
  | nil => rfl
  | cons c t ih =>
    by_cases h : c = sep
    · subst h
      simp [encodeChar_byteOf hs]
    · rw [encode_cons, dropWhile_append_of_not_mem (byteOf_not_mem sep hs h), ih]
      simp [h]

lemma map_encode (t : Text) : (encode t).map (fun b => if b = 0x2B then 0x20 else b) =
    encode (t.map fun c => if c = '+' then ' ' else c) := by
  induction t with
  | nil => rfl
  | cons c t ih =>
    rw [encode_cons, List.map_append, ih, List.map_cons, encode_cons]
    congr 1
    by_cases h : c = '+'
    · subst h
      rfl
    · have hnot : (0x2B : UInt8) ∉ String.utf8EncodeChar c := byteOf_not_mem '+' (by decide) h
      have hsame : ∀ b ∈ String.utf8EncodeChar c, (if b = 0x2B then 0x20 else b) = b := by
        intro b hb
        rw [if_neg]
        rintro rfl
        exact hnot hb
      rw [if_neg h, List.map_congr_left hsame, List.map_id']

end Bytes

/-! ### Decoding both ways -/

section Decoding

variable {c : Char} {t : Text} {as bs : List UInt8} {b : UInt8}

lemma hexDigit_none (h : 0x67 ≤ b.toNat) : hexDigit b = none := by
  unfold hexDigit
  rw [if_neg (by omega), if_neg (by omega), if_neg (by omega)]

lemma hexPair_percent (l : UInt8) : hexPair 0x25 l = none := rfl

lemma hexPair_percent_right (h : UInt8) : hexPair h 0x25 = none := by
  unfold hexPair
  cases hexDigit h <;> rfl

lemma percentDecode_other (h : b ≠ 0x25) : percentDecode (b :: bs) = b :: percentDecode bs := by
  rcases bs with _ | ⟨x, _ | ⟨y, bs⟩⟩
  · rfl
  · rfl
  · rw [percentDecode, if_neg h]

lemma percentDecode_pair {x y v : UInt8} (h : hexPair x y = some v) :
    percentDecode (0x25 :: x :: y :: bs) = v :: percentDecode bs := by
  rw [percentDecode, if_pos rfl, h]

lemma percentDecode_plain (h : ∀ x y rest, bs = x :: y :: rest → hexPair x y = none) :
    percentDecode (0x25 :: bs) = 0x25 :: percentDecode bs := by
  rcases bs with _ | ⟨x, _ | ⟨y, bs⟩⟩
  · rfl
  · rfl
  · rw [percentDecode, if_pos rfl, h x y bs rfl]

/-- A text may be cut before a byte that is neither a percent sign nor a digit. -/
lemma percentDecode_append (hb : 0x80 ≤ b.toNat) (as bs : List UInt8) :
    percentDecode (as ++ b :: bs) = percentDecode as ++ b :: percentDecode bs := by
  have hne : b ≠ 0x25 := by rintro rfl; exact absurd hb (by decide)
  have hdigit : hexDigit b = none := hexDigit_none (by omega)
  have hpair : ∀ x, hexPair x b = none ∧ hexPair b x = none := by
    intro x
    unfold hexPair
    rw [hdigit]
    exact ⟨by cases hexDigit x <;> rfl, rfl⟩
  fun_induction percentDecode as with
  | case1 x y rest v hv ih =>
    simp only [List.cons_append]
    rw [percentDecode_pair hv, ih]
  | case2 x y rest hv ih =>
    simp only [List.cons_append] at ih ⊢
    rw [percentDecode_plain, ih]
    rintro x' y' rest' ⟨⟩
    exact hv
  | case3 a x y rest ha ih =>
    simp only [List.cons_append] at ih ⊢
    rw [percentDecode_other ha, ih]
  | case4 xs hxs =>
    -- less than three bytes are left, and what follows them makes no pair
    rcases xs with _ | ⟨x, _ | ⟨y, _ | ⟨z, xs⟩⟩⟩
    · rw [List.nil_append, percentDecode_other hne, List.nil_append]
    · simp only [List.cons_append, List.nil_append]
      by_cases hx : x = 0x25
      · subst hx
        rw [percentDecode_plain, percentDecode_other hne]
        rintro x' y' rest' ⟨⟩
        exact (hpair _).2
      · rw [percentDecode_other hx, percentDecode_other hne]
    · have hy : percentDecode (y :: b :: bs) = y :: b :: percentDecode bs := by
        by_cases hy : y = 0x25
        · subst hy
          rw [percentDecode_plain, percentDecode_other hne]
          rintro x' y' rest' ⟨⟩
          exact (hpair _).2
        · rw [percentDecode_other hy, percentDecode_other hne]
      simp only [List.cons_append, List.nil_append]
      by_cases hx : x = 0x25
      · subst hx
        rw [percentDecode_plain, hy]
        rintro x' y' rest' ⟨⟩
        exact (hpair _).1
      · rw [percentDecode_other hx, hy]
    · exact absurd rfl (hxs x y z xs)

lemma unquoteToBytes_other (h : b ≠ 0x25) : unquoteToBytes (b :: bs) = b :: unquoteToBytes bs := by
  obtain ⟨w, ws, hw⟩ := List.exists_cons_of_ne_nil (List.splitOn_ne_nil 0x25 bs)
  have hne : (b == 0x25) = false := by simpa using h
  unfold unquoteToBytes
  rw [List.splitOn_cons_eq_if_modifyHead, hne, hw]
  rfl

lemma unquoteToBytes_percent : unquoteToBytes (0x25 :: bs) =
    (bs.splitOn 0x25).flatMap unquoteItem := by
  unfold unquoteToBytes
  rw [List.splitOn_cons_eq_if_modifyHead]
  rfl

lemma prefix_of_splitOn {w : List UInt8} {ws : List (List UInt8)} (h : bs.splitOn b = w :: ws) :
    w <+: bs := by
  induction bs generalizing w ws with
  | nil =>
    rw [List.splitOn_nil] at h
    cases h
    exact List.prefix_rfl
  | cons a bs ih =>
    rw [List.splitOn_cons_eq_if_modifyHead] at h
    split at h
    · cases h
      exact List.nil_prefix
    · obtain ⟨v, vs, hv⟩ := List.exists_cons_of_ne_nil (List.splitOn_ne_nil b bs)
      rw [hv] at h
      cases h
      exact List.cons_prefix_cons.mpr ⟨rfl, ih hv⟩

lemma unquoteToBytes_plain (h : ∀ x y rest, bs = x :: y :: rest → hexPair x y = none) :
    unquoteToBytes (0x25 :: bs) = 0x25 :: unquoteToBytes bs := by
  obtain ⟨w, ws, hw⟩ := List.exists_cons_of_ne_nil (List.splitOn_ne_nil 0x25 bs)
  have hitem : unquoteItem w = 0x25 :: w := by
    obtain ⟨rest, hrest⟩ := prefix_of_splitOn hw
    rcases w with _ | ⟨x, _ | ⟨y, w⟩⟩
    · rfl
    · rfl
    · have hnone := h x y (w ++ rest) (by rw [← hrest]; rfl)
      simp only [unquoteItem, hnone]
  rw [unquoteToBytes_percent, unquoteToBytes, hw]
  simp only [List.flatMap_cons, hitem, List.cons_append]

/-- **Both ways of decoding percent signs agree.** -/
lemma unquoteToBytes_eq (bs : List UInt8) : unquoteToBytes bs = percentDecode bs := by
  fun_induction percentDecode bs with
  | case1 x y rest v hv ih =>
    have hx : x ≠ 0x25 := by rintro rfl; rw [hexPair_percent] at hv; cases hv
    have hy : y ≠ 0x25 := by rintro rfl; rw [hexPair_percent_right] at hv; cases hv
    have hx' : (x == 0x25) = false := by simpa using hx
    have hy' : (y == 0x25) = false := by simpa using hy
    obtain ⟨w, ws, hw⟩ := List.exists_cons_of_ne_nil (List.splitOn_ne_nil 0x25 rest)
    rw [unquoteToBytes_percent, List.splitOn_cons_eq_if_modifyHead, hx',
      List.splitOn_cons_eq_if_modifyHead, hy', hw]
    rw [unquoteToBytes, hw] at ih
    simp only [Bool.false_eq_true, if_false, List.modifyHead_cons, List.flatMap_cons,
      unquoteItem, hv, List.cons_append, ← ih]
  | case2 x y rest hv ih =>
    rw [unquoteToBytes_plain, ih]
    rintro x' y' rest' ⟨⟩
    exact hv
  | case3 a x y rest ha ih => rw [unquoteToBytes_other ha, ih]
  | case4 xs hxs =>
    have hone : ∀ a : UInt8, unquoteToBytes [a] = [a] := by
      intro a
      by_cases ha : a = 0x25
      · subst ha
        rfl
      · rw [unquoteToBytes_other ha]
        rfl
    rcases xs with _ | ⟨x, _ | ⟨y, _ | ⟨z, xs⟩⟩⟩
    · rfl
    · exact hone x
    · by_cases hx : x = 0x25
      · subst hx
        rw [unquoteToBytes_plain (by rintro x' y' rest' ⟨⟩), hone]
      · rw [unquoteToBytes_other hx, hone]
    · exact absurd rfl (hxs x y z xs)

/-- Characters that are not ASCII are left as they are. -/
lemma decode_percentDecode_append (hc : 0x80 ≤ c.val.toNat) (u v : Text) :
    decode (percentDecode (encode (u ++ c :: v))) =
      decode (percentDecode (encode u)) ++ c :: decode (percentDecode (encode v)) := by
  obtain ⟨b, bs, henc, hb, hall⟩ := encodeChar_other hc
  have htail : ∀ xs : List UInt8, (∀ x ∈ xs, 0x80 ≤ x.toNat) → ∀ ys,
      percentDecode (xs ++ ys) = xs ++ percentDecode ys := by
    intro xs hxs ys
    induction xs with
    | nil => rfl
    | cons x xs ih =>
      have hx : x ≠ 0x25 := by rintro rfl; exact absurd (hxs _ List.mem_cons_self) (by decide)
      rw [List.cons_append, percentDecode_other hx,
        ih fun y hy => hxs y (List.mem_cons_of_mem _ hy)]
      rfl
  rw [encode_append, encode_cons, henc, List.cons_append, percentDecode_append (by omega),
    htail bs fun x hx => hall x (List.mem_cons_of_mem _ hx), decode_append (Or.inr hb)]
  have hchar := decode_encodeChar c (percentDecode (encode v))
  rw [henc, List.cons_append] at hchar
  rw [hchar]

/-- **Decoding run by run and all at once give the same text.** -/
lemma unquoteRuns_eq (run t : Text) :
    unquoteRuns run t = decode (percentDecode (encode (run ++ t))) := by
  induction t generalizing run with
  | nil => rw [unquoteRuns, unquoteToBytes_eq, List.append_nil]
  | cons c t ih =>
    unfold unquoteRuns
    split
    · rw [ih, List.append_assoc, List.singleton_append]
    · rw [ih, decode_percentDecode_append (by omega), unquoteToBytes_eq, List.nil_append]

lemma unquote_eq (t : Text) : unquote t = decode (percentDecode (encode t)) := by
  unfold unquote
  split
  · rw [unquoteRuns_eq, List.nil_append]
  · rename_i h
    have hplain : ∀ bs : List UInt8, 0x25 ∉ bs → percentDecode bs = bs := by
      intro bs hbs
      induction bs with
      | nil => rfl
      | cons b bs ih =>
        obtain ⟨hb, hbs⟩ := not_or.mp (List.mem_cons.not.mp hbs)
        rw [percentDecode_other (Ne.symm hb), ih hbs]
    have hmem : 0x25 ∉ encode t := by
      intro hin
      obtain ⟨c, hc, hbc⟩ := List.mem_flatMap.mp hin
      have hne : c ≠ '%' := by rintro rfl; exact h hc
      exact byteOf_not_mem '%' (by decide) hne hbc
    rw [hplain _ hmem, decode_encode]

/-- **The two parsers read the same fields.** -/
theorem parseUrlencoded_eq (t : Text) : parseUrlencoded (encode t) = parseQsl t := by
  have hread : ∀ part : Text, decode (percentDecode ((encode part).map
      fun b => if b = 0x2B then 0x20 else b)) =
      unquote (part.map fun c => if c = '+' then ' ' else c) := by
    intro part
    rw [map_encode, unquote_eq]
  have hamp : (0x26 : UInt8) = byteOf '&' := rfl
  have heq : (0x3D : UInt8) = byteOf '=' := rfl
  unfold parseUrlencoded parseQsl fieldsOf
  rw [hamp, splitOn_encode (by decide), List.filter_map, List.map_map]
  have hfilter : (fun w : List UInt8 => decide (w ≠ [])) ∘ encode =
      fun w : Text => decide (w ≠ []) := by
    funext w
    simp only [Function.comp, ne_eq, encode_eq_nil]
  rw [hfilter]
  refine List.map_congr_left fun w _ => ?_
  simp only [Function.comp, heq, readField]
  rw [takeWhile_encode (by decide), dropWhile_encode (by decide), hread, hread]

/-- A character in front that stands for itself stays in front. -/
lemma unquote_cons (h : c ≠ '%') (t : Text) : unquote (c :: t) = c :: unquote t := by
  rw [unquote_eq, unquote_eq]
  rcases Nat.lt_or_ge c.val.toNat 0x80 with hc | hc
  · have hb : (byteOf c).toNat = c.val.toNat := toNat_byte (by omega)
    have hne : byteOf c ≠ 0x25 := by
      intro heq
      refine byteOf_not_mem '%' (by decide) h ?_
      rw [encodeChar_byteOf hc, heq]
      exact List.mem_singleton_self _
    rw [encode_cons, encodeChar_byteOf hc, List.singleton_append, percentDecode_other hne,
      decode_ascii (by omega), hb]
    exact congrArg (· :: _) (Char.ofNat_toNat c)
  · exact decode_percentDecode_append hc [] t

/-- The first segment of a text ends at the first separator. -/
lemma splitOn_eq_cons (sep : Char) (t : Text) :
    ∃ ws, t.splitOn sep = t.takeWhile (· ≠ sep) :: ws ∧
      ∀ u, sep ∉ u → (u ++ t).splitOn sep = (u ++ t.takeWhile (· ≠ sep)) :: ws := by
  have happ : ∀ {w : Text} {ws : List Text}, t.splitOn sep = w :: ws → ∀ u, sep ∉ u →
      (u ++ t).splitOn sep = (u ++ w) :: ws := by
    intro w ws hw u hu
    induction u with
    | nil => exact hw
    | cons c u ih =>
      obtain ⟨hc, hu⟩ := not_or.mp (List.mem_cons.not.mp hu)
      have hne : (c == sep) = false := by simpa using Ne.symm hc
      rw [List.cons_append, List.splitOn_cons_eq_if_modifyHead, hne, ih hu]
      rfl
  have hself : ∃ ws, t.splitOn sep = t.takeWhile (· ≠ sep) :: ws := by
    clear happ
    induction t with
    | nil => exact ⟨[], rfl⟩
    | cons c t ih =>
      obtain ⟨ws, hws⟩ := ih
      rw [List.splitOn_cons_eq_if_modifyHead]
      by_cases hc : c = sep
      · exact ⟨t.splitOn sep, by simp [hc]⟩
      · exact ⟨ws, by simp [hc, hws]⟩
  obtain ⟨ws, hws⟩ := hself
  exact ⟨ws, hws, happ hws⟩

end Decoding

end OsmParquet.FormFields
