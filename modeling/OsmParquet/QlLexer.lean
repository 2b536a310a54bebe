import OsmParquet.Scanning

/-!
The lexer of the query language.

Blanks and comments stand between tokens. A token knows where it begins and ends, since the parser
glues tokens that touch and cuts the text of expressions out of the source; its line and column go
into messages. A decoded string is a list of code points, since an escape may name half of a pair.
-/

namespace OsmParquet.QlLexer

open OsmParquet.Scanning

/-! ### Tokens -/

inductive Sym
  | lbracket | rbracket | lparen | rparen | lbrace | rbrace | semi | comma | colon | dot | eq | neq
  | tilde | nottilde | bang | lt | ltlt | gt | gtgt | arrow | minus
  deriving DecidableEq, Repr

def Sym.text : Sym → String
  | .lbracket => "["
  | .rbracket => "]"
  | .lparen => "("
  | .rparen => ")"
  | .lbrace => "\x7b"
  | .rbrace => "\x7d"
  | .semi => ";"
  | .comma => ","
  | .colon => ":"
  | .dot => "."
  | .eq => "="
  | .neq => "!="
  | .tilde => "~"
  | .nottilde => "!~"
  | .bang => "!"
  | .lt => "<"
  | .ltlt => "<<"
  | .gt => ">"
  | .gtgt => ">>"
  | .arrow => "->"
  | .minus => "-"

/-- A decoded string. -/
abbrev Text := List ℕ

/-- The code points of a part of the source. -/
def codePoints (s : List Char) : Text := s.map Char.toNat

/-- The type of a token and its value. Numbers are what `float` makes of them. -/
inductive Tok (ν : Type)
  | string (value : Text)
  | number (value : ν)
  | ident (name : String)
  | sym (s : Sym)
  | eof

structure Token (ν : Type) where
  tok : Tok ν
  text : List Char
  start : ℕ
  stop : ℕ
  line : ℕ
  col : ℕ

/-- What a query may raise. Only the first is meant to; `float` and `int` raise the next two, and
the interpreter the last when calls are nested too deep. -/
inductive Raised
  | parseError (message : String) (line column : ℕ)
  | valueError
  | overflowError
  | recursionError
  | outOfFuel
  deriving DecidableEq, Repr

/-! ### Lines and columns -/

/-- The line and the column of an offset, both from 1. -/
def lineCol (text : List Char) (offset : ℕ) : ℕ × ℕ :=
  let before := text.take offset
  (before.count '\n' + 1, (before.reverse.takeWhile (· ≠ '\n')).length + 1)

/-- An error at an offset. -/
def raiseAt (text : List Char) (offset : ℕ) (message : String) : Raised :=
  let (line, col) := lineCol text offset
  .parseError s!"line {line}: parse error: {message}" line col

/-! ### String literals -/

/-- `_ESCAPES`, and any other character as it is. -/
def unescape (esc : Char) : Char :=
  if esc = 'n' then '\n' else if esc = 't' then '\t' else if esc = 'r' then '\r' else esc

def hexDigit? (c : Char) : Option ℕ :=
  if '0' ≤ c ∧ c ≤ '9' then some (c.toNat - '0'.toNat)
  else if 'a' ≤ c ∧ c ≤ 'f' then some (c.toNat - 'a'.toNat + 10)
  else if 'A' ≤ c ∧ c ≤ 'F' then some (c.toNat - 'A'.toNat + 10)
  else none

/-- The number that four hexadecimal digits at the beginning of a text write. -/
def hexEscape? : List Char → Option ℕ
  | a :: b :: c :: d :: _ => do
    return (((← hexDigit? a) * 16 + (← hexDigit? b)) * 16 + (← hexDigit? c)) * 16 + (← hexDigit? d)
  | _ => none

/-- `_read_string` after the opening quote, with the distance from it. An error comes with the
distance it is reported at. -/
def readString (quote : Char) : ℕ → List Char → Except (String × ℕ) (Text × ℕ)
  | _, [] => .error ("unterminated string literal", 0)
  | j, c :: rest =>
    if c = quote then .ok ([], j + 1)
    else if c = '\\' then
      match rest with
      | [] => .error ("unterminated escape sequence", j)
      | esc :: rest =>
        if esc = 'u' then
          match hexEscape? rest, rest with
          | some value, _ :: _ :: _ :: _ :: rest =>
            (readString quote (j + 6) rest).map fun r => (value :: r.1, r.2)
          | _, _ => .error ("invalid \\u escape in string literal", j)
        else (readString quote (j + 2) rest).map fun r => ((unescape esc).toNat :: r.1, r.2)
    else if c = '\n' then .error ("newline in string literal", j)
    else (readString quote (j + 1) rest).map fun r => (c.toNat :: r.1, r.2)

/-! ### The loop -/

def doubleSym : Char → Char → Option Sym
  | '-', '>' => some .arrow
  | '<', '<' => some .ltlt
  | '>', '>' => some .gtgt
  | '!', '=' => some .neq
  | '!', '~' => some .nottilde
  | _, _ => none

/-- `_SINGLE_CHAR_MAP`. -/
def singleSym : Char → Option Sym
  | '[' => some .lbracket
  | ']' => some .rbracket
  | '(' => some .lparen
  | ')' => some .rparen
  | '{' => some .lbrace
  | '}' => some .rbrace
  | ';' => some .semi
  | ',' => some .comma
  | ':' => some .colon
  | '.' => some .dot
  | '=' => some .eq
  | '~' => some .tilde
  | '!' => some .bang
  | '<' => some .lt
  | '>' => some .gt
  | '-' => some .minus
  | _ => none

def symbols : Symbols Sym := ⟨doubleSym, singleSym⟩

def isQuote (c : Char) : Bool := c = '\x22' || c = '\x27'

inductive Comment
  | line
  | block
  deriving DecidableEq, Repr

/-- The comment that begins here. -/
def comment? : List Char → Option Comment
  | '/' :: '/' :: _ => some .line
  | '/' :: '*' :: _ => some .block
  | _ => none

/-- The characters up to the first `*/` and with it. -/
def blockEnd? : List Char → Option ℕ
  | '*' :: '/' :: _ => some 2
  | [] => none
  | _ :: rest => (blockEnd? rest).map (· + 1)

variable {ν : Type} (cc : CharClasses) (float : Text → Option ν) (text : List Char)

/-- A token of some length at an offset. -/
def tokenAt (i : ℕ) (s : List Char) (tok : Tok ν) (k : ℕ) : Option (Token ν) × ℕ :=
  let (line, col) := lineCol text i
  (some ⟨tok, s.take k, i, i + k, line, col⟩, k)

/-- One pass of the loop of `tokenize`. -/
def lexStep : Step Raised (Token ν) := fun i s =>
  match s with
  | [] => .ok (none, 1)
  | c :: rest =>
    if blank c then .ok (none, 1)
    else match comment? s with
      | some .line => .ok (none, (s.takeWhile (· ≠ '\n')).length)
      | some .block =>
        match blockEnd? (s.drop 2) with
        | some k => .ok (none, k + 2)
        | none => .error (raiseAt text i "unterminated block comment")
      | none =>
        if isQuote c then
          match readString c 1 rest with
          | .ok (value, k) => .ok (tokenAt text i s (.string value) k)
          | .error (message, j) => .error (raiseAt text (i + j) message)
        else match symbols.read s with
          | some (x, k) => .ok (tokenAt text i s (.sym x) k)
          | none =>
            if cc.isdigit c then
              let k := numberLength cc s
              match float (codePoints (s.take k)) with
              | some value => .ok (tokenAt text i s (.number value) k)
              | none => .error .valueError
            else if cc.isalpha c || c = '_' then
              let k := wordLength cc s
              .ok (tokenAt text i s (.ident (.ofList (s.take k))) k)
            else .error (raiseAt text i s!"unexpected character '{c}'")

/-- The end of the text, which the parser never passes. -/
def eofToken : Token ν :=
  let (line, col) := lineCol text text.length
  ⟨.eof, [], text.length, text.length, line, col⟩

def tokenize : Except Raised (List (Token ν)) := do
  let ts ← scan (lexStep cc float text) 0 text
  return ts ++ [eofToken text]

/-! ### Every pass reads something -/

section Progress

variable {cc : CharClasses} {float : Text → Option ν} {text s : List Char} {i j k : ℕ}

/-- A literal that is mapped keeps its length. -/
lemma ok_of_map_fst {ε α : Type} {x : Except ε (α × ℕ)} {f : α × ℕ → α} {value : α}
    (h : x.map (fun r => (f r, r.2)) = .ok (value, k)) : ∃ v, x = .ok (v, k) := by
  rcases x with e | ⟨v, l⟩
  · cases h
  · cases h
    exact ⟨v, rfl⟩

lemma lt_of_readString {q : Char} {value : Text} (h : readString q j s = .ok (value, k)) :
    j < k := by
  fun_induction readString q j s generalizing value k with
  | case1 => cases h
  | case2 =>
    cases h
    omega
  | case3 => cases h
  | case4 j code a b c d rest hq hcode ih =>
    simp only [hcode] at h
    obtain ⟨v, hv⟩ := ok_of_map_fst h
    have := ih hv
    omega
  | case5 j rest hshort hq =>
    rcases hcode : hexEscape? rest with _ | code
    · rw [hcode] at h
      cases h
    · rcases rest with _ | ⟨a, _ | ⟨b, _ | ⟨c, _ | ⟨d, rest⟩⟩⟩⟩
      iterate 4 cases hcode
      exact absurd rfl (hshort code a b c d rest hcode)
  | case6 j esc rest hu hq ih =>
    obtain ⟨v, hv⟩ := ok_of_map_fst h
    have := ih hv
    omega
  | case7 => cases h
  | case8 j c rest hq hb hn ih =>
    obtain ⟨v, hv⟩ := ok_of_map_fst h
    have := ih hv
    omega

lemma comment?_line (h : comment? s = some .line) : ∃ rest, s = '/' :: rest := by
  rw [comment?.eq_def] at h
  split at h
  · exact ⟨_, rfl⟩
  · cases h
  · cases h

lemma lexStep_progresses : Progresses (lexStep cc float text) := by
  intro i s t k h
  rcases s with _ | ⟨c, rest⟩
  · cases h
    exact le_rfl
  rw [lexStep] at h
  split at h
  · cases h
    exact le_rfl
  split at h
  · rename_i hcomment
    cases h
    obtain ⟨r, hr⟩ := comment?_line hcomment
    cases hr
    simp
  · split at h
    · cases h
      omega
    · cases h
  · split at h
    · split at h
      · rename_i hread
        cases h
        have := lt_of_readString hread
        omega
      · cases h
    · split at h
      · rename_i hread
        cases h
        rcases Symbols.read_cases hread with ⟨rfl, -⟩ | ⟨rfl, -⟩ <;> omega
      · split at h
        · rename_i hd
          dsimp only at h
          split at h
          · cases h
            exact numberLength_pos hd
          · cases h
        · split at h
          · cases h
            rw [wordLength]
            omega
          · cases h

end Progress

end OsmParquet.QlLexer
