import OsmParquet.Elements

/-!
The elements as XML.

A way is printed with a line `nd` for every ref, with the position where there is one for every
ref. A point that was dropped is a line without position. Where the refs are not shown the points
are printed alone, and there a point that was dropped has nothing to print: the program reads a
field of nothing and fails.
-/

namespace OsmParquet.XmlOutput

open OsmParquet.KeyedList OsmParquet.Rows OsmParquet.Elements

variable {F : Type}

/-! ### Texts -/

def quote : Char := Char.ofNat 34

def apostrophe : Char := Char.ofNat 39

/-- The character in a text. -/
def xmlEscapeChar (c : Char) : List Char :=
  if c = '&' then "&amp;".toList
  else if c = '>' then "&gt;".toList
  else if c = '<' then "&lt;".toList
  else [c]

/-- The character in an attribute. -/
def attrEscapeChar (c : Char) : List Char :=
  if c = '\n' then "&#10;".toList
  else if c = '\r' then "&#13;".toList
  else if c = '\t' then "&#9;".toList
  else xmlEscapeChar c

def xmlEscape (data : String) : String := String.ofList (data.toList.flatMap xmlEscapeChar)

/-- A text in the quotes that it does not have; if it has both, the double ones are replaced. -/
def quoteattr (data : String) : String :=
  let escaped := data.toList.flatMap attrEscapeChar
  if quote ∈ escaped then
    if apostrophe ∈ escaped then
      String.ofList ([quote] ++ (escaped.flatMap fun c => if c = quote then "&quot;".toList
        else [c]) ++ [quote])
    else String.ofList ([apostrophe] ++ escaped ++ [apostrophe])
  else String.ofList ([quote] ++ escaped ++ [quote])

def attr (name : String) (value : Option String) : String :=
  value.elim "" fun v => " " ++ name ++ "=" ++ quoteattr v

/-! ### Elements -/

def typeName : Typ → String
  | .node => "node"
  | .way => "way"
  | .relation => "relation"

section Writer

variable (host : Host F)

def metaAttrs (el : Element F) : String :=
  attr "version" (el.version.map toString) ++ attr "timestamp" el.timestamp ++
    attr "changeset" (el.changeset.map toString) ++ attr "uid" (el.uid.map toString) ++
    attr "user" el.user ++ attr "visible" (el.visible.map fun b => if b then "true" else "false")

def tagXml (tag : String × String) : String :=
  "<tag k=" ++ quoteattr tag.1 ++ " v=" ++ quoteattr tag.2 ++ "/>"

def tagsXml (el : Element F) : String := String.join ((el.tags.getD []).map tagXml)

def boundsXml (el : Element F) : String :=
  el.bounds.elim "" fun b =>
    "<bounds minlat=\"" ++ host.text b.minlat ++ "\" minlon=\"" ++ host.text b.minlon ++
      "\" maxlat=\"" ++ host.text b.maxlat ++ "\" maxlon=\"" ++ host.text b.maxlon ++ "\"/>"

def centerXml (el : Element F) : String :=
  el.center.elim "" fun c => "<center lat=\"" ++ host.text c.lat ++ "\" lon=\"" ++
    host.text c.lon ++ "\"/>"

def openTag (name : String) (el : Element F) : String :=
  "<" ++ name ++ " id=\"" ++ toString el.id ++ "\""

/-- An element without contents has no closing tag. -/
def closed (name head body : String) : String :=
  if body = "" then head ++ "/>" else head ++ ">" ++ body ++ "</" ++ name ++ ">"

def nodeXml (el : Element F) : String :=
  let coord := el.coord.getD (none, none)
  closed "node" (openTag "node" el ++ attr "lat" (coord.1.map host.text) ++
    attr "lon" (coord.2.map host.text) ++ metaAttrs el) (tagsXml el)

def latLon (p : LatLon F) : String :=
  " lat=\"" ++ host.text p.lat ++ "\" lon=\"" ++ host.text p.lon ++ "\""

/-- The line for a ref. A point that was dropped, or none at all, leaves the position out. -/
def refNd (ref : ℤ) (pt : Option (LatLon F)) : String :=
  "<nd ref=\"" ++ toString ref ++ "\"" ++ pt.elim "" (latLon host) ++ "/>"

/-- The line for a point without its ref. -/
def pointNd : Option (LatLon F) → Except String String
  | some p => .ok ("<nd" ++ latLon host p ++ "/>")
  | none => .error "TypeError: 'NoneType' object is not subscriptable"

/-- The lines for the nodes of a way. The positions are those of the refs if there are as many. -/
def wayNds (el : Element F) : Except String (List String) :=
  match el.nodes, el.geometry with
  | some nodes, some geometry =>
    .ok (if nodes.length = geometry.length then List.zipWith (refNd host) nodes geometry
      else nodes.map fun ref => refNd host ref none)
  | some nodes, none => .ok (nodes.map fun ref => refNd host ref none)
  | none, some geometry => geometry.mapM (pointNd host)
  | none, none => .ok []

/-- A way around the lines for its nodes. -/
def wayAround (el : Element F) (nds : List String) : String :=
  closed "way" (openTag "way" el ++ metaAttrs el)
    (boundsXml host el ++ centerXml host el ++ String.join nds ++ tagsXml el)

def wayXml (el : Element F) : Except String String := (wayNds host el).map (wayAround host el)

def areaXml (el : Element F) : String :=
  closed "area" (openTag "area" el ++ metaAttrs el) (tagsXml el)

def orNone (x : Option F) : String := x.elim "None" host.text

def memberXml (m : OutMember F) : String :=
  let head := "<member type=\"" ++ typeName m.type ++ "\" ref=\"" ++ toString m.ref ++ "\" role=" ++
    quoteattr m.role
  match m.type, m.coord, m.geometry with
  | .node, some c, _ => head ++ " lat=\"" ++ orNone host c.1 ++ "\" lon=\"" ++
    orNone host c.2 ++ "\"/>"
  | .way, _, some points =>
    head ++ ">" ++ String.join (points.map fun p => "<nd" ++ latLon host p ++ "/>") ++ "</member>"
  | _, _, _ => head ++ "/>"

def relationXml (el : Element F) : String :=
  closed "relation" (openTag "relation" el ++ metaAttrs el)
    (boundsXml host el ++ centerXml host el ++
      String.join ((el.members.getD []).map (memberXml host)) ++ tagsXml el)

def elementXml (el : Element F) : Except String String :=
  match el.type with
  | .count => .ok ("<count>" ++ tagsXml el ++ "</count>")
  | .node => .ok (nodeXml host el)
  | .way => wayXml host el
  | .relation => .ok (relationXml host el)
  | .area => .ok (areaXml el)
  | .timeline => .ok (openTag "timeline" el ++ ">" ++ tagsXml el ++ "</timeline>")

def generator : String := "osmpq 0.0.1"

def copyright : String :=
  "The data included in this document is from www.openstreetmap.org. " ++
    "The data is made available under ODbL."

/-- A part of the answer that is left out if there is no text for it. -/
def given (text : Option String) (part : String → String) : String :=
  (text.filter fun t => !t.isEmpty).elim "" part

/-- The whole answer. -/
def renderXml (osmBase remark : Option String) (elements : List (Element F)) :
    Except String String :=
  (elements.mapM (elementXml host)).map fun texts =>
    "<?xml version=\"1.0\" encoding=\"UTF-8\"?><osm version=\"0.6\" generator=\"" ++
      xmlEscape generator ++ "\"><note>" ++ xmlEscape copyright ++ "</note>" ++
      given osmBase (fun t => "<meta osm_base=\"" ++ xmlEscape t ++ "\"/>") ++ String.join texts ++
      given remark (fun t => "<remark>" ++ xmlEscape t ++ "</remark>") ++ "</osm>"

end Writer

/-! ### What is expected -/

/-- The rows that become elements. -/
def printedRows (set : List (OutRow F)) (out : Out F) (found : Resolved F) : List (OutRow F) :=
  if out.count then [] else rowsToPrint set out found

def showsRefs (out : Out F) : Bool := out.verbosity.showsBody && !out.noids

section Expected

variable (host : Host F)

/-- The line shows the ref, with a position or without. -/
def NdOf (ref : ℤ) (nd : String) : Prop := ∃ pt, nd = refNd host ref pt

/-- A way whose refs are shown has one line for every ref, in their order. -/
def RefsInOrder (row : OutRow F) (out : Out F) (found : Resolved F) : Prop :=
  row.type = .way → showsRefs out = true →
    ∃ nds, List.Forall₂ (NdOf host) (row.refs.getD []) nds ∧
      elementXml host (rowToElement host row out found) =
        .ok (wayAround host (rowToElement host row out found) nds)

/-- A point of a line that is neither in the box nor next to a point in it. -/
def FarPoint (bbox : ClipBox F) (pts : List (F × F)) : Prop :=
  ∃ i, i < pts.length ∧ ∀ j p, pts[j]? = some p → (j = i ∨ j + 1 = i ∨ j = i + 1) →
    pointInBbox host bbox p = false

/-- The line of a way is clipped, loses a point, and is printed without the refs. -/
def LosesPoint (row : OutRow F) (out : Out F) : Prop :=
  row.type = .way ∧ out.geometry = .geom ∧ showsRefs out = false ∧
    ∃ pts bbox, row.geometry = some pts ∧ out.geomBbox = some bbox ∧ FarPoint host bbox pts

end Expected

/-! ### Clipping -/

section Clipping

variable {host : Host F} {bbox : ClipBox F} {pts : List (F × F)}

lemma insideAt_eq_false {j : ℕ} : (pts.map (pointInBbox host bbox)).getD j false = false ↔
    ∀ p, pts[j]? = some p → pointInBbox host bbox p = false := by
  rw [List.getD_eq_getElem?_getD, List.getElem?_map]
  cases pts[j]? <;> simp

lemma none_mem_clipWayGeometry : none ∈ clipWayGeometry host pts bbox ↔ FarPoint host bbox pts := by
  unfold clipWayGeometry FarPoint
  rw [List.mem_mapIdx]
  refine exists_congr fun i => ?_
  constructor
  · rintro ⟨hi, hnone⟩
    split_ifs at hnone with hc
    rw [Bool.not_eq_true, Bool.or_eq_false_iff, Bool.or_eq_false_iff, Bool.and_eq_false_iff,
      Bool.and_eq_false_iff, decide_eq_false_iff_not, decide_eq_false_iff_not] at hc
    refine ⟨hi, ?_⟩
    rintro j p hp (rfl | rfl | rfl)
    · exact insideAt_eq_false.mp hc.1.1 p hp
    · exact insideAt_eq_false.mp (hc.1.2.resolve_left (by simp)) p hp
    · have hlt : i + 1 < pts.length := (List.getElem?_eq_some_iff.mp hp).1
      exact insideAt_eq_false.mp (hc.2.resolve_left (not_not.mpr hlt)) p hp
  · rintro ⟨hi, hfar⟩
    refine ⟨hi, if_neg ?_⟩
    rw [Bool.not_eq_true, Bool.or_eq_false_iff, Bool.or_eq_false_iff, Bool.and_eq_false_iff,
      Bool.and_eq_false_iff, decide_eq_false_iff_not, decide_eq_false_iff_not]
    refine ⟨⟨insideAt_eq_false.mpr fun p hp => hfar i p hp (.inl rfl), ?_⟩, ?_⟩
    · rcases Nat.eq_zero_or_pos i with h0 | h0
      · exact .inl (by omega)
      · exact .inr (insideAt_eq_false.mpr fun p hp => hfar _ p hp (.inr (.inl (by omega))))
    · exact .inr (insideAt_eq_false.mpr fun p hp => hfar _ p hp (.inr (.inr rfl)))

end Clipping

/-! ### Ways -/

section Ways

variable {host : Host F} {row : OutRow F} {out : Out F} {found : Resolved F}

lemma mapM_ok {α β : Type} {f : α → Except String β} {l : List α} :
    (∃ ys, l.mapM f = .ok ys) ↔ ∀ x ∈ l, ∃ y, f x = .ok y := by
  induction l with
  | nil => simp [pure, Except.pure]
  | cons x l ih =>
    rw [List.forall_mem_cons, ← ih, List.mapM_cons]
    cases hx : f x with
    | error e => simp [bind, Except.bind]
    | ok y =>
      cases hl : l.mapM f with
      | error e => simp [bind, Except.bind]
      | ok ys => simp [bind, Except.bind, pure, Except.pure]

lemma ok_pointNds {geometry : List (Option (LatLon F))} :
    (∃ nds, geometry.mapM (pointNd host) = .ok nds) ↔ none ∉ geometry := by
  rw [mapM_ok]
  constructor
  · rintro hall hnone
    obtain ⟨y, hy⟩ := hall none hnone
    cases hy
  · intro hnone x hx
    cases x with
    | none => exact absurd hx hnone
    | some p => exact ⟨_, rfl⟩

lemma way_nodes (hway : row.type = .way) : (rowToElement host row out found).nodes =
    if showsRefs out then some (row.refs.getD []) else none := by
  rw [rowToElement_way hway]
  simp [wayFields, showsRefs]

lemma way_geometry (hway : row.type = .way) : (rowToElement host row out found).geometry =
    (shownLine row out).map fun pts =>
      geometryPointsToJson host ((clippedLine host row out).getD (pts.map some)) := by
  rw [rowToElement_way hway]
  simp [wayFields]

lemma elementXml_way (hway : row.type = .way) : elementXml host (rowToElement host row out found) =
    (wayNds host (rowToElement host row out found)).map
    (wayAround host (rowToElement host row out found)) := by
  rw [elementXml, rowToElement_type, hway]
  rfl

lemma forall₂_zipWith {refs : List ℤ} {geometry : List (Option (LatLon F))}
    (hlen : refs.length = geometry.length) :
    List.Forall₂ (NdOf host) refs (List.zipWith (refNd host) refs geometry) := by
  induction refs generalizing geometry with
  | nil => exact .nil
  | cons ref refs ih =>
    obtain ⟨pt, geometry, rfl⟩ := List.exists_cons_of_length_eq_add_one hlen.symm
    exact .cons ⟨pt, rfl⟩ (ih (Nat.succ.inj hlen))

/-- With the refs shown there is a line for every one of them. -/
lemma wayNds_of_refs {el : Element F} {refs : List ℤ} (hrefs : el.nodes = some refs) :
    ∃ nds, wayNds host el = .ok nds ∧ List.Forall₂ (NdOf host) refs nds := by
  have bare : List.Forall₂ (NdOf host) refs (refs.map fun ref => refNd host ref none) := by
    rw [List.forall₂_map_right_iff]
    exact List.forall₂_same.mpr fun ref _ => ⟨none, rfl⟩
  rw [wayNds, hrefs]
  cases hg : el.geometry with
  | none => exact ⟨_, rfl, bare⟩
  | some geometry =>
    refine ⟨_, rfl, ?_⟩
    split_ifs with hlen
    · exact forall₂_zipWith hlen
    · exact bare

/-- Clipping leaves gaps, and nothing else does. -/
lemma none_mem_geometry (hway : row.type = .way) :
    (∃ geometry, (rowToElement host row out found).geometry = some geometry ∧ none ∈ geometry) ↔
      out.geometry = .geom ∧ ∃ pts bbox, row.geometry = some pts ∧ out.geomBbox = some bbox ∧
        FarPoint host bbox pts := by
  rw [way_geometry hway]
  unfold clippedLine shownLine
  by_cases hgeom : out.geometry = .geom
  · rcases hpts : row.geometry with _ | pts
    · simp
    · rcases hbox : out.geomBbox with _ | bbox
      · simp [hgeom, geometryPointsToJson]
      · simp [hgeom, geometryPointsToJson, none_mem_clipWayGeometry]
  · simp [hgeom]

/-- Without refs a line that has a gap cannot be printed. -/
lemma ok_wayNds_of_no_refs {el : Element F} (hn : el.nodes = none) :
    (∃ nds, wayNds host el = .ok nds) ↔ ¬ ∃ geometry, el.geometry = some geometry ∧
      none ∈ geometry := by
  rw [wayNds, hn]
  cases hg : el.geometry with
  | none => simp
  | some geometry => simpa using ok_pointNds

lemma ok_map {α β : Type} {f : α → β} {x : Except String α} :
    (∃ y, x.map f = .ok y) ↔ ∃ z, x = .ok z := by
  cases x <;> simp [Except.map]

/-- A way is printed if and only if it shows its refs or keeps all its points. -/
lemma ok_way (hway : row.type = .way) :
    (∃ text, elementXml host (rowToElement host row out found) = .ok text) ↔
      ¬ LosesPoint host row out := by
  have hnodes : (rowToElement host row out found).nodes = _ := way_nodes hway
  rw [elementXml_way hway, ok_map]
  cases hshow : showsRefs out with
  | true =>
    rw [hshow, if_pos rfl] at hnodes
    obtain ⟨nds, hnds, -⟩ : ∃ nds, wayNds host _ = .ok nds ∧ _ := wayNds_of_refs hnodes
    refine ⟨fun _ hlose => ?_, fun _ => ⟨nds, hnds⟩⟩
    have hhidden := hlose.2.2.1
    rw [hshow] at hhidden
    contradiction
  | false =>
    rw [hshow, if_neg Bool.false_ne_true] at hnodes
    rw [ok_wayNds_of_no_refs hnodes, none_mem_geometry hway, LosesPoint, hshow]
    simp [hway]

lemma ok_other (hway : row.type ≠ .way) :
    ∃ text, elementXml host (rowToElement host row out found) = .ok text := by
  rw [elementXml, rowToElement_type]
  cases ht : row.type <;> simp_all

lemma ok_row : (∃ text, elementXml host (rowToElement host row out found) = .ok text) ↔
    ¬ LosesPoint host row out := by
  by_cases hway : row.type = .way
  · exact ok_way hway
  · exact ⟨fun _ hlose => hway hlose.1, fun _ => ok_other hway⟩

lemma refsInOrder (host : Host F) (row : OutRow F) (out : Out F) (found : Resolved F) :
    RefsInOrder host row out found := by
  intro hway hshow
  have hnodes : (rowToElement host row out found).nodes = some (row.refs.getD []) := by
    rw [way_nodes hway, if_pos hshow]
  obtain ⟨nds, hnds, hrefs⟩ : ∃ nds, wayNds host _ = .ok nds ∧ _ := wayNds_of_refs hnodes
  exact ⟨nds, hrefs, by rw [elementXml_way hway, hnds]; rfl⟩

end Ways

/-- **The answer is written if and only if no line loses a point that would be printed without its
ref**, and the ways that show their refs have a line for every one of them. -/
theorem renderXml_ok_iff (host : Host F) (set : List (OutRow F)) (out : Out F) (found : Resolved F)
    (includeAreasCount : Bool) (osmBase remark : Option String) :
    (∃ text, renderXml host osmBase remark (buildElements host set out found includeAreasCount).1 =
        .ok text) ∧ (∀ row ∈ printedRows set out found, RefsInOrder host row out found) ↔
      ∀ row ∈ printedRows set out found, ¬ LosesPoint host row out := by
  rw [and_iff_left fun row _ => refsInOrder host row out found, renderXml, ok_map, mapM_ok]
  unfold printedRows buildElements
  by_cases hcount : out.count = true
  · rw [if_pos hcount, if_pos hcount]
    simp [elementXml, countElement]
  · rw [if_neg hcount, if_neg hcount]
    simp only [List.forall_mem_map]
    exact forall₂_congr fun row _ => ok_row

/-- A way along the equator. -/
def eastward : List (OutRow ℚ) :=
  [{ (bareRow .way 1 : OutRow ℚ) with refs := some [1, 2, 3], geometry := some [(0, 0),
    (1, 0), (2, 0)] }]

/-- With `out ids geom` and a box around its end the way cannot be printed. -/
theorem renderXml_eastward :
    ¬ ∀ (set : List (OutRow ℚ)) (out : Out ℚ) (found : Resolved ℚ) (includeAreasCount : Bool)
      (osmBase remark : Option String),
      (∃ text, renderXml exactHost osmBase remark
        (buildElements exactHost set out found includeAreasCount).1 = .ok text) ∧
      (∀ row ∈ printedRows set out found, RefsInOrder exactHost row out found) := by
  intro hall
  obtain ⟨⟨text, htext⟩, -⟩ := hall eastward
    { verbosity := .ids, geometry := .geom, geomBbox := some ⟨-1, 2, 1, 3⟩ }
      .nothing false none none
  have herror : renderXml exactHost none none (buildElements exactHost eastward
      { verbosity := .ids, geometry := .geom, geomBbox := some ⟨-1, 2, 1, 3⟩ } .nothing false).1 =
      .error "TypeError: 'NoneType' object is not subscriptable" := by
    rfl
  rw [herror] at htext
  cases htext

end OsmParquet.XmlOutput
