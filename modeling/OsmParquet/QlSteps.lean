import OsmParquet.QlRuns

/-!
What the functions of the parser of the query language can do.

A function that returns leaves an end of its tokens, and many of them a shorter one, so that loops
end. A function that raises does so at a token, unless it meets a number or a text that is no
number, or has no room left: what these exceptions are is a parameter here, and most functions have
none.
-/

namespace OsmParquet.QlSteps

open OsmParquet.QlLexer OsmParquet.QlParser OsmParquet.Outcomes OsmParquet.QlRuns

variable {ν α β σ : Type} {all ts us : List (Token ν)} {t : Token ν} {k l : ℕ} {B C : Raised → Prop}

/-! ### Tokens that are left -/

/-- An end of all tokens, with the last one, which is the end of the text. -/
structure Left (all ts : List (Token ν)) : Prop where
  suffix : ts <:+ all
  last : ∃ front eof, ts = front ++ [eof] ∧ eof.tok = .eof

lemma Left.cons (h : Left all ts) : ∃ t us, ts = t :: us := by
  obtain ⟨_ | ⟨t, front⟩, eof, rfl, -⟩ := h.last
  · exact ⟨eof, [], rfl⟩
  · exact ⟨t, front ++ [eof], rfl⟩

lemma Left.mem (h : Left all (t :: us)) : t ∈ all := h.suffix.subset List.mem_cons_self

lemma Left.tail (h : Left all (t :: us)) (hus : us ≠ []) : Left all us := by
  refine ⟨(List.suffix_cons t us).trans h.suffix, ?_⟩
  obtain ⟨_ | ⟨u, front⟩, eof, heq, heof⟩ := h.last
  · cases heq
    exact absurd rfl hus
  · cases heq
    exact ⟨front, eof, rfl, heof⟩

/-- Only the end of the text has nothing after it. -/
lemma Left.next (h : Left all (t :: us)) (ht : t.tok ≠ .eof) : Left all us := by
  refine h.tail ?_
  rintro rfl
  obtain ⟨_ | ⟨u, front⟩, eof, heq, heof⟩ := h.last
  · cases heq
    exact ht heof
  · simp at heq

/-- The place of a token. -/
def AtToken (all : List (Token ν)) (r : Raised) : Prop :=
  ∃ message, ∃ t ∈ all, r = .parseError message t.line t.col

/-! ### Rules -/

/-- From these tokens, a function leaves at least `k` fewer or raises at a token, or raises what `B`
says. -/
def Steps (all : List (Token ν)) (p : Parser ν α) (ts : List (Token ν)) (k : ℕ)
    (B : Raised → Prop) : Prop :=
  Yields p ts (fun _ us => Left all us ∧ us.length + k ≤ ts.length) fun r => AtToken all r ∨ B r

/-- A function that raises at tokens alone. -/
def Reads (all : List (Token ν)) (k : ℕ) (p : Parser ν α) : Prop :=
  ∀ ts, Left all ts → Steps all p ts k fun _ => False

section Rules

variable {p : Parser ν α} {f : α → Parser ν β}

lemma Steps.mono (h : Steps all p ts k B) (hk : l ≤ k) (hB : ∀ r, B r → C r) : Steps all p ts l C :=
  Yields.mono h (fun _ us hus => ⟨hus.1, by omega⟩) fun r hr => hr.imp_right (hB r)

/-- Runs that go the same way, from the same tokens or after the first of them. -/
lemma Steps.congr {q : Parser ν α} (hrun : p ts = q ts) (h : Steps all q ts k B) :
    Steps all p ts k B :=
  Yields.congr hrun h

lemma Steps.next {q : Parser ν α} (hrun : p (t :: us) = q us) (h : Steps all q us k B) :
    Steps all p (t :: us) (k + 1) B :=
  Yields.congr hrun (Yields.mono h
    (fun _ vs hvs => ⟨hvs.1, by have := hvs.2; rw [List.length_cons]; omega⟩) fun _ => id)

lemma Reads.steps (h : Reads all k p) (hts : Left all ts) : Steps all p ts k B :=
  (h ts hts).mono le_rfl fun _ hr => hr.elim

lemma Reads.quiet (h : Reads all k p) : Reads all 0 p :=
  fun ts hts => (h ts hts).mono (Nat.zero_le k) fun _ => id

/-- One after the other; each leaves fewer. -/
lemma Steps.bind (hp : Steps all p ts k B)
    (hf : ∀ a us, p ts = .ok (a, us) → Left all us → Steps all (f a) us l B) :
    Steps all (p >>= f) ts (k + l) B := by
  refine Yields.bind hp fun a us hrun hus => ?_
  exact Yields.mono (hf a us hrun hus.1) (fun _ vs hvs => ⟨hvs.1, by have := hus.2; omega⟩)
    fun _ => id

lemma Reads.bind (hp : Reads all k p) (hf : ∀ a, Reads all 0 (f a)) : Reads all k (p >>= f) :=
  fun ts hts => (hp ts hts).bind fun a us _ hus => hf a us hus

/-- What comes first may leave all tokens. -/
lemma Reads.after (hp : Reads all 0 p) (hf : ∀ a, Reads all k (f a)) : Reads all k (p >>= f) := by
  intro ts hts
  have h : Steps all (p >>= f) ts (0 + k) _ := (hp ts hts).bind fun a us _ hus => hf a us hus
  rwa [Nat.zero_add] at h

lemma reads_pure (a : α) : Reads all 0 (pure a : Parser ν α) :=
  fun _ hts => Yields.pure ⟨hts, le_rfl⟩

/-- The current token is not read. -/
lemma reads_current : Reads all 0 (current : Parser ν (Token ν)) :=
  fun _ hts => Yields.of_ok rfl ⟨hts, le_rfl⟩

lemma reads_check (s : Sym) : Reads all 0 (check s : Parser ν Bool) :=
  fun _ hts => Yields.of_ok rfl ⟨hts, le_rfl⟩

lemma reads_checkIdent : Reads all 0 (checkIdent : Parser ν Bool) :=
  fun _ hts => Yields.of_ok rfl ⟨hts, le_rfl⟩

lemma reads_advance : Reads all 0 (advance : Parser ν (Token ν)) := by
  intro ts hts
  refine Yields.of_ok rfl ?_
  rcases ts with _ | ⟨t, _ | ⟨u, us⟩⟩
  · exact ⟨hts, le_rfl⟩
  · exact ⟨hts, le_rfl⟩
  · exact ⟨hts.tail (by simp), by simp [advanceOf]⟩

lemma run_error (message : String) (hts : Left all ts) :
    ∃ r, AtToken all r ∧ (error message : Parser ν α) ts = .error r := by
  obtain ⟨t, us, rfl⟩ := hts.cons
  exact ⟨_, ⟨_, t, hts.mem, rfl⟩, rfl⟩

lemma run_errorGot (message : String) (hts : Left all ts) :
    ∃ r, AtToken all r ∧ (errorGot message : Parser ν α) ts = .error r := run_error _ hts

lemma reads_error (message : String) : Reads all k (error message : Parser ν α) := by
  intro ts hts
  obtain ⟨r, hr, hrun⟩ := run_error message hts
  exact Yields.of_error hrun (Or.inl hr)

lemma reads_errorGot (message : String) : Reads all k (errorGot message : Parser ν α) := by
  intro ts hts
  obtain ⟨r, hr, hrun⟩ := run_errorGot message hts
  exact Yields.of_error hrun (Or.inl hr)

end Rules

/-! ### Single tokens -/

section Tokens

variable {f : Unit → Parser ν β} {g : Token ν → Parser ν β} {h : Bool → Parser ν β}

lemma isSym_iff {s : Sym} : isSym s t = true ↔ t.tok = .sym s := by
  rw [isSym]
  split <;> simp_all [eq_comm]

lemma isEof_iff : isEof t = true ↔ t.tok = .eof := by
  rw [isEof]
  split <;> simp_all

lemma Left.ne_nil (hts : Left all ts) : ts ≠ [] := by
  obtain ⟨t, us, rfl⟩ := hts.cons
  simp

/-- What stands at the front decides. -/
lemma steps_current (hg : Steps all (g t) (t :: us) k B) :
    Steps all (current >>= g) (t :: us) k B :=
  .congr (run_current g) hg

lemma steps_check {s : Sym} (htrue : t.tok = .sym s → Steps all (h true) (t :: us) k B)
    (hfalse : t.tok ≠ .sym s → Steps all (h false) (t :: us) k B) :
    Steps all (check s >>= h) (t :: us) k B := by
  refine .congr (q := h (isSym s t)) (bind_ok run_check) ?_
  rcases hsym : isSym s t with _ | _
  · exact hfalse fun ht => by simp [isSym_iff.mpr ht] at hsym
  · exact htrue (isSym_iff.mp hsym)

lemma steps_atEnd (htrue : t.tok = .eof → Steps all (h true) (t :: us) k B)
    (hfalse : t.tok ≠ .eof → Steps all (h false) (t :: us) k B) :
    Steps all (atEnd >>= h) (t :: us) k B := by
  refine .congr (q := h (isEof t)) (bind_ok rfl) ?_
  rcases heof : isEof t with _ | _
  · exact hfalse fun ht => by simp [isEof_iff.mpr ht] at heof
  · exact htrue (isEof_iff.mp heof)

/-- A token that is not the end is read. -/
lemma steps_advance (hts : Left all (t :: us)) (ht : t.tok ≠ .eof)
    (hg : Left all us → Steps all (g t) us k B) : Steps all (advance >>= g) (t :: us) (k + 1) B :=
  .next (run_advance (hts.next ht).ne_nil g) (hg (hts.next ht))

lemma expect_cases (s : Sym) (hts : Left all (t :: us)) :
    (t.tok = .sym s ∧ Left all us ∧ expect s (t :: us) = .ok ((), us)) ∨
      (t.tok ≠ .sym s ∧ ∃ r, AtToken all r ∧ expect s (t :: us) = .error r) := by
  by_cases ht : t.tok = .sym s
  · have hus := hts.next (by simp [ht])
    exact Or.inl ⟨ht, hus, run_expect ht hus.ne_nil⟩
  · have hsym : isSym s t = false := Bool.eq_false_iff.mpr fun h => ht (isSym_iff.mp h)
    have hcheck : check s (t :: us) = .ok (false, t :: us) := by rw [run_check, hsym]
    obtain ⟨r, hr, herror⟩ := run_errorGot (α := Unit) s!"expected '{s.text}'" hts
    refine Or.inr ⟨ht, r, hr, ?_⟩
    rw [expect, bind_ok hcheck]
    exact herror

lemma steps_expect {s : Sym} (hts : Left all (t :: us))
    (hf : t.tok = .sym s → Left all us → Steps all (f ()) us k B) :
    Steps all (expect s >>= f) (t :: us) (k + 1) B := by
  rcases expect_cases s hts with ⟨ht, hus, hrun⟩ | ⟨-, r, hr, hrun⟩
  · exact .next (bind_ok hrun) (hf ht hus)
  · exact Yields.of_error (bind_error hrun) (Or.inl hr)

lemma reads_expect (s : Sym) : Reads all 1 (expect s : Parser ν Unit) := by
  intro ts hts
  obtain ⟨t, us, rfl⟩ := hts.cons
  rcases expect_cases s hts with ⟨-, hus, hrun⟩ | ⟨-, r, hr, hrun⟩
  · exact Yields.of_ok hrun ⟨hus, le_rfl⟩
  · exact Yields.of_error hrun (Or.inl hr)

lemma run_expectIdentText {name : String} (ht : t.tok = .ident name) (hus : us ≠ []) :
    expectIdentText (t :: us) = .ok (name, us) := by
  rw [expectIdentText, run_current]
  simp only [ht]
  exact run_advance hus _

lemma steps_expectIdentText {g : String → Parser ν β} (hts : Left all (t :: us))
    (hg : ∀ name, t.tok = .ident name → Left all us → Steps all (g name) us k B) :
    Steps all (expectIdentText >>= g) (t :: us) (k + 1) B := by
  obtain ⟨r, hr, herror⟩ := run_errorGot (α := String) "expected identifier" hts
  have hother : expectIdentText (t :: us) = .error r →
      Steps all (expectIdentText >>= g) (t :: us) (k + 1) B :=
    fun h => Yields.of_error (bind_error h) (Or.inl hr)
  rcases ht : t.tok with value | value | name | s | _
  case ident =>
    have hus := hts.next (by simp [ht])
    exact .next (bind_ok (run_expectIdentText ht hus.ne_nil)) (hg name ht hus)
  all_goals
    refine hother ?_
    rw [expectIdentText, run_current]
    simp only [ht]
    exact herror

lemma reads_expectIdentText : Reads all 1 (expectIdentText : Parser ν String) := by
  intro ts hts
  obtain ⟨t, us, rfl⟩ := hts.cons
  refine steps_current ?_
  split
  · rename_i ht
    exact steps_advance hts (by simp [ht]) fun hus => (reads_pure _).steps hus
  · exact (reads_errorGot _).steps hts

end Tokens

/-! ### Loops -/

section Loops

variable {cond : σ → Token ν → Bool} {body : σ → Parser ν σ} {x y z : σ}

/-- Passes of a loop, from a state with the tokens that are left to another one. -/
inductive Passes (cond : σ → Token ν → Bool) (body : σ → Parser ν σ) :
    σ → List (Token ν) → σ → List (Token ν) → Prop
  | none (x : σ) (ts : List (Token ν)) : Passes cond body x ts x ts
  | pass {x y z : σ} {ts us vs : List (Token ν)} (hcond : cond x (currentOf ts) = true)
      (hbody : body x ts = .ok (y, us)) (hpasses : Passes cond body y us z vs) :
      Passes cond body x ts z vs

/-- A pass reads a token or raises. -/
def Progress (all : List (Token ν)) (cond : σ → Token ν → Bool) (body : σ → Parser ν σ)
    (B : σ → List (Token ν) → Raised → Prop) : Prop :=
  ∀ x ts, Left all ts → cond x (currentOf ts) = true → Steps all (body x) ts 1 (B x ts)

variable {D : σ → List (Token ν) → Raised → Prop}

lemma run_whileSteps (n : ℕ) (hts : ts ≠ []) : whileSteps cond body (n + 1) x ts =
    if cond x (currentOf ts) = true then (body x >>= whileSteps cond body n) ts
      else .ok (x, ts) := by
  obtain ⟨t, us, rfl⟩ := List.exists_cons_of_ne_nil hts
  have hcurrent : currentOf (t :: us) = t := rfl
  rw [whileSteps, run_current, hcurrent]
  cases cond x t <;> rfl

/-- **A loop ends**, and raises only what one of its passes does. -/
lemma steps_whileSteps (hbody : Progress all cond body D) {n : ℕ} (hn : ts.length < n)
    (hts : Left all ts) :
    Steps all (whileSteps cond body n x) ts 0 fun r =>
      ∃ y us, Passes cond body x ts y us ∧ Left all us ∧
      cond y (currentOf us) = true ∧ D y us r := by
  induction n generalizing x ts with
  | zero => omega
  | succ n ih =>
    rcases hcond : cond x (currentOf ts) with _ | _
    · have hrun : whileSteps cond body (n + 1) x ts = .ok (x, ts) := by
        rw [run_whileSteps n hts.ne_nil, hcond]
        rfl
      exact Yields.of_ok hrun ⟨hts, le_rfl⟩
    · have hrun : whileSteps cond body (n + 1) x ts = (body x >>= whileSteps cond body n) ts := by
        rw [run_whileSteps n hts.ne_nil, hcond]
        rfl
      refine .congr hrun (Yields.bind (hbody x ts hts hcond |>.mono le_rfl fun r hr => ?_) ?_)
      · exact ⟨x, ts, .none x ts, hts, hcond, hr⟩
      · intro y us hy hus
        refine Yields.mono (ih (by omega) hus.1) (fun _ vs hvs => ⟨hvs.1, by omega⟩) fun r =>
          Or.imp_right ?_
        rintro ⟨z, vs, hpasses, hz⟩
        exact ⟨z, vs, .pass hcond hy hpasses, hz⟩

lemma steps_whileLoop (hbody : Progress all cond body D) (hts : Left all ts) :
    Steps all (whileLoop cond body x) ts 0 fun r =>
      ∃ y us, Passes cond body x ts y us ∧ Left all us ∧ cond y (currentOf us) = true ∧ D y us r :=
  .congr (q := whileSteps cond body (ts.length + 1) x) rfl (steps_whileSteps hbody (by omega) hts)

lemma reads_whileLoop (hbody : Progress all cond body fun _ _ _ => False) :
    Reads all 0 (whileLoop cond body x) :=
  fun _ hts => (steps_whileLoop hbody hts).mono le_rfl fun _ ⟨_, _, _, _, _, h⟩ => h

/-- A loop that makes a pass reads a token. -/
lemma steps_whileLoop_pos (hbody : Progress all cond body fun _ _ _ => False) (hts : Left all ts)
    (hcond : cond x (currentOf ts) = true) : Steps all (whileLoop cond body x) ts 1 B := by
  have hrun : whileLoop cond body x ts = (body x >>= whileSteps cond body ts.length) ts := by
    show whileSteps cond body (ts.length + 1) x ts = _
    rw [run_whileSteps _ hts.ne_nil, hcond]
    rfl
  have hpass := hbody x ts hts hcond
  refine .congr hrun (Yields.bind (hpass.mono le_rfl fun _ h => h.elim) fun y us hy hus => ?_)
  refine Yields.mono (steps_whileSteps hbody (by omega) hus.1)
    (fun _ vs hvs => ⟨hvs.1, by omega⟩) ?_
  exact fun r => Or.imp_right fun ⟨_, _, _, _, _, h⟩ => h.elim

lemma Passes.left (hpasses : Passes cond body x ts y us) (hbody : Progress all cond body D)
    (hts : Left all ts) : Left all us := by
  induction hpasses with
  | none => exact hts
  | pass hpass hy _ ih => exact ih ((hbody _ _ hts hpass).ok hy).1

/-- **What a pass raises, the loop raises.** -/
lemma Passes.error {r : Raised} (hpasses : Passes cond body x ts y us)
    (hbody : Progress all cond body D) (hts : Left all ts) (hcond : cond y (currentOf us) = true)
    (herror : body y us = .error r) : whileLoop cond body x ts = .error r := by
  have hsteps : ∀ n, ts.length < n → whileSteps cond body n x ts = .error r := by
    induction hpasses with
    | none x ts =>
      intro n hn
      obtain ⟨n, rfl⟩ : ∃ m, n = m + 1 := ⟨n - 1, by omega⟩
      rw [run_whileSteps n hts.ne_nil, if_pos hcond]
      exact bind_error herror
    | @pass x y z ts us vs hpass hy _ ih =>
      intro n hn
      obtain ⟨n, rfl⟩ : ∃ m, n = m + 1 := ⟨n - 1, by omega⟩
      obtain ⟨hus, hlt⟩ := (hbody x ts hts hpass).ok hy
      rw [run_whileSteps n hts.ne_nil, if_pos hpass, bind_ok hy]
      exact ih hus hcond herror n (by omega)
  exact hsteps _ (Nat.lt_succ_self _)

end Loops

end OsmParquet.QlSteps
