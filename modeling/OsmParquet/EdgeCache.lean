import Mathlib.Data.List.DropRight
import Mathlib.Data.List.Infix
import Mathlib.Logic.Function.Basic
import OsmParquet.FormFields
import OsmParquet.Traces

/-!
The cache at the edge.

The worker looks the query text of a request up in its cache before it forwards the request to
the container, and keeps what the container answers. It takes the text out of the request on
its own account, the container on its own; an answer is kept under the text the worker saw and
is right for the text the container saw. The two agree on what most clients send. They do not
where the parameter is given twice or is empty with a body beside it, where a request to get
something has a body, and where the body of a form begins with a mark that only the worker drops.
-/

namespace OsmParquet.EdgeCache

open OsmParquet.Utf8 OsmParquet.FormFields OsmParquet.Traces

/-- Only the first two methods are routed to the interpreter. -/
inductive Method
  | get
  | post
  | other
  deriving DecidableEq, Repr

/-- A request to the interpreter. The query string of a URL is ASCII, everything else is percent
encoded. -/
structure Request where
  method : Method
  query : Text
  ascii : ∀ c ∈ query, c.val.toNat < 0x80
  body : List UInt8
  deriving DecidableEq

structure Response where
  status : ℕ
  cacheControl : Option String
  content : String
  deriving DecidableEq, Repr

/-- What `trim` takes for white space: the spaces, the line ends and the byte order mark. -/
def isSpace (c : Char) : Bool :=
  c.val.toNat ∈ [0x09, 0x0A, 0x0B, 0x0C, 0x0D, 0x20, 0xA0, 0x1680, 0x2028, 0x2029, 0x202F, 0x205F,
    0x3000, 0xFEFF] ∨ (0x2000 ≤ c.val.toNat ∧ c.val.toNat ≤ 0x200A)

def normalizeQuery (raw : Text) : Text := (raw.dropWhile isSpace).rdropWhile isSpace

/-- The values of the fields named `data`, in their order. -/
def dataValues (fields : List (Text × Text)) : List Text :=
  (fields.filter fun f => f.1 = ['d', 'a', 't', 'a']).map Prod.snd

/-! ### The worker -/

namespace Worker

/-- The text of a body: a byte order mark in front is dropped. -/
def text : List UInt8 → Text
  | 0xEF :: 0xBB :: 0xBF :: rest => decode rest
  | body => decode body

/-- Search parameters made from a string: a question mark in front is dropped. -/
def searchParams : Text → List (Text × Text)
  | '?' :: init => parseUrlencoded (encode init)
  | init => parseUrlencoded (encode init)

def extractQuery (r : Request) : Text :=
  match (dataValues (parseUrlencoded (encode r.query))).head? with
  | some dataParam => dataParam
  | none =>
    if r.method ≠ .post then []
    else if text r.body = [] then []
    else ((dataValues (searchParams (text r.body))).head?).getD (text r.body)

end Worker

/-! ### The container -/

namespace Server

def extractQuery (data : Option Text) (body : List UInt8) : Text :=
  match data with
  | some (c :: cs) => c :: cs
  | _ =>
    if body = [] then []
    else ((dataValues (parseQsl (decode body))).head?).getD (decode body)

end Server

section Service

-- how the web framework reads the parameter, and the hash of the cache keys
variable (queryParam : Text → Option Text) (sha256Hex : Text → Text)

/-- The query text as the container reads it. -/
def serverQuery (r : Request) : Text := Server.extractQuery (queryParam r.query) r.body

def cacheKeyUrl (normalizedQuery outputHint : Text) : Text :=
  "https://osmpq.cache/interpreter/".toList ++ sha256Hex (outputHint ++ '\n' :: normalizedQuery)

def cacheKey (r : Request) : Text :=
  cacheKeyUrl sha256Hex (normalizeQuery (Worker.extractQuery r)) []

/-! ### The service -/

/-- The entries of the cache, the requests the container is at work on, and what has been: the
answers of the container and the answers out of the cache. -/
structure Edge where
  cache : List (Text × Response)
  pending : List Request
  produced : List (Request × Response)
  served : List (Request × Response)
  deriving DecidableEq

def Edge.empty : Edge := ⟨[], [], [], []⟩

inductive Event
  | arrive (r : Request) (allowed : Bool)
  | answer (r : Request) (response : Response)
  | evict (key : Text)

/-- The worker keeps a result, but no error and nothing the container does not want kept. -/
def storable (response : Response) : Bool :=
  (200 ≤ response.status ∧ response.status < 300) ∧
    ¬ "no-store".toList <:+: (response.cacheControl.getD "").toList

/-- Requests come and are answered in any order; entries expire at any time. -/
def handle (s : Edge) : Event → Option Edge
  | .arrive r allowed =>
    if r.method = .other ∨ allowed = false then some s
    else match s.cache.lookup (cacheKey sha256Hex r) with
      | some response => some { s with served := s.served ++ [(r, response)] }
      | none => some { s with pending := r :: s.pending }
  | .answer r response =>
    if r ∈ s.pending then
      some { s with
        pending := s.pending.erase r
        produced := s.produced ++ [(r, response)]
        cache := if storable response then (cacheKey sha256Hex r, response) :: s.cache
          else s.cache }
    else none
  | .evict key => some { s with cache := s.cache.filter fun e => e.1 ≠ key }

/-- Every answer out of the cache was made for a request with the same text, as the container
reads it. -/
def Coherent (s : Edge) : Prop :=
  ∀ x ∈ s.served, ∃ r, (r, x.2) ∈ s.produced ∧
    normalizeQuery (serverQuery queryParam r) = normalizeQuery (serverQuery queryParam x.1)

end Service

/-! ### The same text -/

/-- The values of `data` in the URL. -/
def urlValues (r : Request) : List Text := dataValues (parseQsl r.query)

/-- What a body says: its first field `data`, or else all of it. -/
def bodySays (body : List UInt8) : Text :=
  ((dataValues (parseQsl (decode body))).head?).getD (decode body)

/-- What the worker parses of a body: without a byte order mark and without a question mark in
front. -/
def bare (body : List UInt8) : Text :=
  match Worker.text body with
  | '?' :: t => t
  | t => t

/-- The value of the first field behind the marks, when there are marks and the field is `data`. -/
def markedValue (body : List UInt8) : Option Text :=
  if decode body = bare body then none
  else (dataValues (parseQsl ((bare body).takeWhile (· ≠ '&')))).head?

/-- When worker and container read the same text out of a request, up to `f`.

A parameter given several times has the same first and last value; where the last one is empty
the first value is what the body says, and where there is none and the request is no post the
body says nothing. A form whose first field is `data` with a mark in front says the same with
and without this field, and a byte order mark in front of a plain text makes no difference. -/
structure ReadAlike (f : Text → Text) (r : Request) : Prop where
  given : ∀ first ∈ (urlValues r).head?, ∀ last ∈ (urlValues r).getLast?, last ≠ [] →
    f first = f last
  blank : ∀ first ∈ (urlValues r).head?, (urlValues r).getLast? = some [] →
    f first = f (bodySays r.body)
  absent : urlValues r = [] → r.method ≠ .post → f [] = f (bodySays r.body)
  marked : urlValues r = [] → r.method = .post → ∀ v ∈ markedValue r.body,
    f v = f (bodySays r.body)
  plain : urlValues r = [] → r.method = .post → markedValue r.body = none →
    dataValues (parseQsl (decode r.body)) = [] → f (Worker.text r.body) = f (decode r.body)

section Reading

variable {t u : Text} {body : List UInt8}

lemma dataValues_append (a b : List (Text × Text)) :
    dataValues (a ++ b) = dataValues a ++ dataValues b := by
  simp [dataValues, List.filter_append]

lemma fieldsOf_cons (w : Text) (ws : List Text) :
    fieldsOf (w :: ws) = fieldsOf [w] ++ fieldsOf ws := by
  by_cases h : w = []
  · simp [fieldsOf, h]
  · simp [fieldsOf, h]

/-- A field whose name begins with a mark is not `data`. -/
lemma dataValues_marked {c : Char} (hc : c = '\uFEFF' ∨ c = '?') (w : Text) :
    dataValues (fieldsOf [c :: w]) = [] := by
  have h1 : c ≠ '%' ∧ c ≠ '=' ∧ c ≠ '+' ∧ c ≠ 'd' := by rcases hc with rfl | rfl <;> decide
  have hname : (readField (c :: w)).1 ≠ ['d', 'a', 't', 'a'] := by
    simp only [readField]
    rw [List.takeWhile_cons_of_pos (by simpa using h1.2.1), List.map_cons, if_neg h1.2.2.1,
      unquote_cons h1.1]
    intro h
    exact h1.2.2.2 (List.cons.inj h).1
  simp [fieldsOf, dataValues, hname]

/-- The marks of a body are the byte order mark, a question mark, or one after the other. -/
lemma decode_eq_marks (body : List UInt8) :
    (decode body = Worker.text body ∨ decode body = '\uFEFF' :: Worker.text body) ∧
      (Worker.text body = bare body ∨ Worker.text body = '?' :: bare body) := by
  constructor
  · unfold Worker.text
    split
    · exact Or.inr (decode_encodeChar '\uFEFF' _)
    · exact Or.inl rfl
  · unfold bare
    split
    · exact Or.inr ‹_›
    · exact Or.inl rfl

lemma searchParams_text (body : List UInt8) :
    Worker.searchParams (Worker.text body) = parseQsl (bare body) := by
  unfold Worker.searchParams bare
  split
  · rw [parseUrlencoded_eq]
  · rw [parseUrlencoded_eq]

/-- With marks in front the container misses the first field, and only this one. -/
lemma dataValues_of_marks (h : decode body ≠ bare body) :
    dataValues (parseQsl (bare body)) =
      dataValues (parseQsl ((bare body).takeWhile (· ≠ '&'))) ++
        dataValues (parseQsl (decode body)) := by
  obtain ⟨ws, hws, happ⟩ := splitOn_eq_cons '&' (bare body)
  have hfirst : parseQsl ((bare body).takeWhile (· ≠ '&')) =
      fieldsOf [(bare body).takeWhile (· ≠ '&')] := by
    have hnot : '&' ∉ (bare body).takeWhile (· ≠ '&') := fun hmem => by
      simpa using List.mem_takeWhile_imp hmem
    rw [parseQsl, List.splitOn_eq_splitOnP, List.splitOnP_eq_singleton]
    intro c hc
    have hne : c ≠ '&' := by rintro rfl; exact hnot hc
    simpa using hne
  -- the marks are a text without a separator that begins with one of them
  have hmarks : ∃ c p, (c = '\uFEFF' ∨ c = '?') ∧ '&' ∉ c :: p ∧
      decode body = (c :: p) ++ bare body := by
    obtain ⟨h1, h2⟩ := decode_eq_marks body
    rcases h1 with h1 | h1 <;> rcases h2 with h2 | h2
    · exact absurd (h1.trans h2) h
    · exact ⟨'?', [], Or.inr rfl, by decide, h1.trans h2⟩
    · exact ⟨'\uFEFF', [], Or.inl rfl, by decide, by rw [h1, h2]; rfl⟩
    · exact ⟨'\uFEFF', ['?'], Or.inl rfl, by decide, by rw [h1, h2]; rfl⟩
  obtain ⟨c, p, hc, hp, heq⟩ := hmarks
  rw [hfirst, heq, parseQsl, parseQsl, happ _ hp, hws, fieldsOf_cons, fieldsOf_cons ((c :: p) ++ _),
    dataValues_append, dataValues_append, List.cons_append, dataValues_marked hc, List.nil_append]

lemma extractQuery_of_blank (data : Option Text) (h : ∀ v ∈ data, v = []) :
    Server.extractQuery data body = bodySays body := by
  have hbody : (if body = [] then [] else ((dataValues (parseQsl (decode body))).head?).getD
      (decode body)) = bodySays body := by
    split
    · rename_i hnil
      rw [hnil]
      rfl
    · rfl
  rcases data with _ | _ | ⟨c, cs⟩
  · exact hbody
  · exact hbody
  · exact absurd (h _ rfl) (List.cons_ne_nil _ _)

/-- Without marks the worker drops nothing. -/
lemma text_eq_decode (hm : decode body = bare body) : Worker.text body = decode body := by
  obtain ⟨h1, h2⟩ := decode_eq_marks body
  rcases h1 with h1 | h1
  · exact h1.symm
  · have hlen := congrArg List.length (h1.symm.trans hm)
    rw [List.length_cons] at hlen
    rcases h2 with h2 | h2
    · rw [h2] at hlen
      omega
    · rw [h2, List.length_cons] at hlen
      omega

/-- A body of nothing but a mark has no fields. -/
lemma no_values_of_text_nil (hm : decode body ≠ bare body) (hnil : Worker.text body = []) :
    dataValues (parseQsl ((bare body).takeWhile (· ≠ '&'))) = [] ∧
      dataValues (parseQsl (decode body)) = [] := by
  have hbare : bare body = [] := by
    rcases (decode_eq_marks body).2 with h2 | h2
    · rw [← h2, hnil]
    · rw [hnil] at h2
      cases h2
  have hnone : dataValues (parseQsl ((bare body).takeWhile (· ≠ '&'))) = [] := by rw [hbare]; rfl
  have hvalues := dataValues_of_marks hm
  rw [hnone, hbare] at hvalues
  exact ⟨hnone, hvalues.symm⟩

/-- What worker and container make of the body of a post. -/
lemma post_alike_iff (f : Text → Text) (body : List UInt8) :
    f (if Worker.text body = [] then [] else
        ((dataValues (Worker.searchParams (Worker.text body))).head?).getD (Worker.text body)) =
        f (bodySays body) ↔
      (∀ v ∈ markedValue body, f v = f (bodySays body)) ∧
        (markedValue body = none → dataValues (parseQsl (decode body)) = [] →
          f (Worker.text body) = f (decode body)) := by
  rw [searchParams_text]
  by_cases hm : decode body = bare body
  · -- without marks both parse the same text
    have hsame : (if decode body = [] then [] else
        ((dataValues (parseQsl (decode body))).head?).getD (decode body)) = bodySays body := by
      split
      · rename_i hnil
        rw [bodySays, hnil]
        rfl
      · rfl
    rw [text_eq_decode hm, ← hm, hsame, markedValue, if_pos hm]
    simp
  · have hmarked : markedValue body =
        (dataValues (parseQsl ((bare body).takeWhile (· ≠ '&')))).head? := if_neg hm
    rw [dataValues_of_marks hm, hmarked]
    by_cases hnil : Worker.text body = []
    · obtain ⟨hnone, hrest⟩ := no_values_of_text_nil hm hnil
      rw [if_pos hnil, hnone, bodySays, hrest, hnil]
      simp
    · rw [if_neg hnil]
      rcases hfirst : dataValues (parseQsl ((bare body).takeWhile (· ≠ '&'))) with _ | ⟨v, vs⟩
      · rw [bodySays]
        rcases hrest : dataValues (parseQsl (decode body)) with _ | ⟨d, ds⟩
        · simp
        · simp
      · simp

end Reading

section Agreement

variable {queryParam : Text → Option Text}

/-- Without a parameter it is the body that counts, of a post only. -/
lemma readAlike_of_absent {f : Text → Text} {r : Request} (hvals : urlValues r = []) :
    ReadAlike f r ↔ (r.method ≠ .post → f [] = f (bodySays r.body)) ∧
      (r.method = .post → (∀ v ∈ markedValue r.body, f v = f (bodySays r.body)) ∧
        (markedValue r.body = none → dataValues (parseQsl (decode r.body)) = [] →
          f (Worker.text r.body) = f (decode r.body))) := by
  constructor
  · exact fun h => ⟨h.absent hvals, fun hpost => ⟨h.marked hvals hpost, h.plain hvals hpost⟩⟩
  · rintro ⟨habsent, hpost⟩
    exact ⟨by simp [hvals], by simp [hvals], fun _ => habsent, fun _ hp => (hpost hp).1,
      fun _ hp => (hpost hp).2⟩

/-- With a parameter its first and its last value count, and the body if the last one is empty. -/
lemma readAlike_of_given {f : Text → Text} {r : Request} {first last : Text}
    (hfirst : (urlValues r).head? = some first) (hlast : (urlValues r).getLast? = some last) :
    ReadAlike f r ↔ (last ≠ [] → f first = f last) ∧
      (last = [] → f first = f (bodySays r.body)) := by
  have hne : urlValues r ≠ [] := fun h => by rw [h] at hfirst; cases hfirst
  constructor
  · intro h
    exact ⟨h.given first hfirst last hlast, fun hnil => h.blank first hfirst (hnil ▸ hlast)⟩
  · rintro ⟨hgiven, hblank⟩
    refine ⟨fun a ha b hb => ?_, fun a ha hb => ?_, fun h => absurd h hne, fun h => absurd h hne,
      fun h => absurd h hne⟩
    · cases hfirst.symm.trans ha
      cases hlast.symm.trans hb
      exact hgiven
    · cases hfirst.symm.trans ha
      exact hblank (Option.some.inj (hlast.symm.trans hb))

/-- **When the texts agree.** -/
lemma alike_iff (hq : ∀ q, queryParam q = (dataValues (parseQsl q)).getLast?) (f : Text → Text)
    (r : Request) :
    f (Worker.extractQuery r) = f (serverQuery queryParam r) ↔ ReadAlike f r := by
  unfold Worker.extractQuery serverQuery
  rw [parseUrlencoded_eq, hq]
  change f (match (urlValues r).head? with | some v => v | none => _) =
    f (Server.extractQuery (urlValues r).getLast? r.body) ↔ _
  rcases hvals : urlValues r with _ | ⟨first, rest⟩
  · rw [readAlike_of_absent hvals, List.getLast?_nil, extractQuery_of_blank none (by simp),
      List.head?_nil]
    simp only
    by_cases hpost : r.method = .post
    · rw [if_neg (fun h => h hpost), post_alike_iff]
      simp [hpost]
    · rw [if_pos hpost]
      simp [hpost]
  · obtain ⟨last, hlast⟩ := Option.isSome_iff_exists.mp
      (List.getLast?_isSome.mpr (List.cons_ne_nil first rest))
    rw [readAlike_of_given (by rw [hvals]; rfl) (by rw [hvals, hlast]), hlast, List.head?_cons]
    simp only
    by_cases hblank : last = []
    · rw [extractQuery_of_blank (some last) (by rintro v ⟨⟩; exact hblank)]
      simp [hblank]
    · obtain ⟨c, cs, rfl⟩ := List.exists_cons_of_ne_nil hblank
      change f first = f (c :: cs) ↔ _
      simp

end Agreement

/-! ### Runs -/

section Runs

variable {queryParam : Text → Option Text} {sha256Hex : Text → Text} {s s' : Edge}

/-- The entries of the cache come from answers to requests with their key, and all requests the
container has been sent are read alike. -/
structure Inv (queryParam : Text → Option Text) (sha256Hex : Text → Text) (s : Edge) : Prop where
  cache : ∀ e ∈ s.cache, ∃ r, (r, e.2) ∈ s.produced ∧ cacheKey sha256Hex r = e.1 ∧
    normalizeQuery (Worker.extractQuery r) = normalizeQuery (serverQuery queryParam r)
  pending : ∀ r ∈ s.pending,
    normalizeQuery (Worker.extractQuery r) = normalizeQuery (serverQuery queryParam r)
  coherent : Coherent queryParam s

lemma inv_empty : Inv queryParam sha256Hex Edge.empty :=
  ⟨fun _ h => (List.not_mem_nil h).elim, fun _ h => (List.not_mem_nil h).elim,
    fun _ h => (List.not_mem_nil h).elim⟩

/-- Without collisions a key stands for one text. -/
lemma cacheKey_inj (hinj : Function.Injective sha256Hex) {r r' : Request}
    (h : cacheKey sha256Hex r = cacheKey sha256Hex r') :
    normalizeQuery (Worker.extractQuery r) = normalizeQuery (Worker.extractQuery r') := by
  have h1 := hinj (List.append_cancel_left h)
  exact (List.cons.inj h1).2

/-- What is served was made for a request with the same key. -/
lemma inv_hit (hinj : Function.Injective sha256Hex) (hi : Inv queryParam sha256Hex s) {r : Request}
    {response : Response}
    (hgood : normalizeQuery (Worker.extractQuery r) = normalizeQuery (serverQuery queryParam r))
    (hhit : s.cache.lookup (cacheKey sha256Hex r) = some response) :
    Inv queryParam sha256Hex { s with served := s.served ++ [(r, response)] } := by
  refine ⟨hi.cache, hi.pending, fun x hx => ?_⟩
  rcases List.mem_append.mp hx with hx | hx
  · exact hi.coherent x hx
  · obtain ⟨l₁, l₂, hsplit, -⟩ := List.lookup_eq_some_iff.mp hhit
    obtain ⟨r', hprod, hkey, hgood'⟩ := hi.cache (cacheKey sha256Hex r, response) (by
      rw [hsplit]
      exact List.mem_append.mpr (Or.inr List.mem_cons_self))
    cases List.mem_singleton.mp hx
    exact ⟨r', hprod, by rw [← hgood', cacheKey_inj hinj hkey, hgood]⟩

/-- What is kept was made for the request it is kept under. -/
lemma inv_answer (hi : Inv queryParam sha256Hex s) {r : Request} (response : Response)
    (hpending : r ∈ s.pending) :
    Inv queryParam sha256Hex { s with
      pending := s.pending.erase r
      produced := s.produced ++ [(r, response)]
      cache := if storable response then (cacheKey sha256Hex r, response) :: s.cache
        else s.cache } := by
  have hkept : ∀ {r' : Request} {x : Response}, (r', x) ∈ s.produced →
      (r', x) ∈ s.produced ++ [(r, response)] := fun h => List.mem_append.mpr (Or.inl h)
  have hold : ∀ e ∈ s.cache, ∃ r', (r', e.2) ∈ s.produced ++ [(r, response)] ∧
      cacheKey sha256Hex r' = e.1 ∧
      normalizeQuery (Worker.extractQuery r') = normalizeQuery (serverQuery queryParam r') := by
    intro e he
    obtain ⟨r', hprod, hrest⟩ := hi.cache e he
    exact ⟨r', hkept hprod, hrest⟩
  refine ⟨fun e he => ?_, fun r' hr' => hi.pending r' (List.mem_of_mem_erase hr'), fun x hx => ?_⟩
  · simp only at he
    split at he
    · rcases List.mem_cons.mp he with rfl | he
      · exact ⟨r, List.mem_append.mpr (Or.inr (List.mem_singleton_self _)), rfl,
          hi.pending r hpending⟩
      · exact hold e he
    · exact hold e he
  · obtain ⟨r', hprod, htext⟩ := hi.coherent x hx
    exact ⟨r', hkept hprod, htext⟩

/-- What one event keeps. -/
lemma inv_step (hinj : Function.Injective sha256Hex) {e : Event} (hi : Inv queryParam sha256Hex s)
    (hc : ∀ r, e = .arrive r true → r.method ≠ .other →
      normalizeQuery (Worker.extractQuery r) = normalizeQuery (serverQuery queryParam r))
    (h : handle sha256Hex s e = some s') : Inv queryParam sha256Hex s' := by
  cases e with
  | arrive r allowed =>
    simp only [handle] at h
    split at h
    · cases h
      exact hi
    rename_i hrouted
    obtain ⟨hmethod, hallowed⟩ := not_or.mp hrouted
    have hgood := hc r (by rw [Bool.of_not_eq_false hallowed]) hmethod
    split at h
    · rename_i response hhit
      cases h
      exact inv_hit hinj hi hgood hhit
    · cases h
      refine ⟨hi.cache, fun r' hr' => ?_, hi.coherent⟩
      rcases List.mem_cons.mp hr' with rfl | hr'
      · exact hgood
      · exact hi.pending r' hr'
  | answer r response =>
    simp only [handle] at h
    split at h
    · rename_i hpending
      cases h
      exact inv_answer hi response hpending
    · cases h
  | evict key =>
    cases h
    exact ⟨fun e he => hi.cache e (List.mem_filter.mp he).1, hi.pending, hi.coherent⟩

/-- **The cache at the edge.** Let the framework give the last value of the parameter and let the
hash have no collisions. Worker and container take the same text out of a request, exactly or up
to its ends, exactly when the request is read alike in this sense; and in every run whose requests
are all read alike up to their ends, whatever order they are answered in and whatever expires,
what is served out of the cache was made for the text of the request it is served for. -/
theorem edge_cache_coherent (hq : ∀ q, queryParam q = (dataValues (parseQsl q)).getLast?)
    (hinj : Function.Injective sha256Hex) :
    (∀ r, Worker.extractQuery r = serverQuery queryParam r ↔ ReadAlike id r) ∧
    (∀ r, normalizeQuery (Worker.extractQuery r) = normalizeQuery (serverQuery queryParam r) ↔
      ReadAlike normalizeQuery r) ∧
    ∀ es s, (∀ r, Event.arrive r true ∈ es → r.method ≠ .other → ReadAlike normalizeQuery r) →
      play (handle sha256Hex) Edge.empty es = some s → Coherent queryParam s := by
  refine ⟨fun r => alike_iff hq id r, fun r => alike_iff hq normalizeQuery r, fun es s hes hp => ?_⟩
  have hstep : ∀ s e s', Inv queryParam sha256Hex s → e ∈ es →
      handle sha256Hex s e = some s' → Inv queryParam sha256Hex s' := by
    intro s e s' hi he h
    refine inv_step hinj hi (fun r her hr => ?_) h
    exact (alike_iff hq normalizeQuery r).mpr (hes r (her ▸ he) hr)
  exact (play_keeps hstep inv_empty (along_of_forall fun _ h => h) hp).coherent

end Runs

/-! ### Two clients -/

/-- A post of the plain query `out;`. -/
def outPost : Request := ⟨.post, [], fun _ h => (List.not_mem_nil h).elim, encode "out;".toList⟩

/-- The same query as a parameter. -/
def outGet : Request := ⟨.get, "data=out%3B".toList, by simp, []⟩

/-- The same query in the body of a post whose parameter is there and blank. -/
def blankPost : Request := ⟨.post, "data=".toList, by simp, encode "out;".toList⟩

/-- Nothing at all. -/
def emptyGet : Request := ⟨.get, [], fun _ h => (List.not_mem_nil h).elim, []⟩

def answer : Response := ⟨200, some "public, max-age=60", "elements"⟩

/-- The framework as it is. -/
def lastParam (q : Text) : Option Text := (dataValues (parseQsl q)).getLast?

/-- The query posted and then asked for as a parameter: the second client gets the answer to the
first. -/
theorem edge_cache_same_query :
    play (handle id) Edge.empty [.arrive outPost true, .answer outPost answer,
      .arrive outGet true] =
        some ⟨[(cacheKey id outPost, answer)], [], [(outPost, answer)], [(outGet, answer)]⟩ ∧
      Coherent lastParam
        ⟨[(cacheKey id outPost, answer)], [], [(outPost, answer)], [(outGet, answer)]⟩ := by
  have hplay : play (handle id) Edge.empty
      [.arrive outPost true, .answer outPost answer, .arrive outGet true] =
      some ⟨[(cacheKey id outPost, answer)], [], [(outPost, answer)], [(outGet, answer)]⟩ := by
    decide
  obtain ⟨-, hiff, hrun⟩ := @edge_cache_coherent lastParam id (fun _ => rfl) Function.injective_id
  refine ⟨hplay, hrun _ _ (fun r hr _ => ?_) hplay⟩
  simp only [List.mem_cons, Event.arrive.injEq, reduceCtorEq, and_true, List.not_mem_nil, or_false,
    false_or] at hr
  rcases hr with rfl | rfl
  · exact (hiff _).mp (by decide)
  · exact (hiff _).mp (by decide)

/-- The query posted with a blank parameter: the worker keeps the answer as that of the empty
query, and a client who asks nothing gets it. -/
theorem edge_cache_poisoned :
    play (handle id) Edge.empty
        [.arrive blankPost true, .answer blankPost answer, .arrive emptyGet true] =
        some ⟨[(cacheKey id blankPost, answer)], [], [(blankPost, answer)], [(emptyGet, answer)]⟩ ∧
      ¬ Coherent lastParam
        ⟨[(cacheKey id blankPost, answer)], [], [(blankPost, answer)], [(emptyGet, answer)]⟩ := by
  refine ⟨by decide, fun h => ?_⟩
  obtain ⟨r, hr, htext⟩ := h (emptyGet, answer) List.mem_cons_self
  have hr : (r, answer) = (blankPost, answer) := List.mem_singleton.mp hr
  cases (Prod.ext_iff.mp hr).1
  exact absurd htext (by decide)

end OsmParquet.EdgeCache
