import ContractSync.Proofs.Contract.Examples
import ContractSync.Proofs.Contract.Normal

/-!
# The layout of a document

`Place` says what stands where in a document of OpenAPI 3: which fields hold schemas, which hold examples,
which are mappings whose keys the author chose. A pass looks at keys alone. **If no chosen name is a key that
a pass takes for something else, and nothing in the shared examples looks like a schema that a pass would
change, then the passes bring every schema into normal form and leave every example**
(`normalize_rewrites`). Names and examples that do not fit are told apart wrongly
(`normalize_rewrites_fails`).
-/

namespace ContractSync.Contract

open ContractSync.Document

/-! ### Places -/

/-- What stands at a place of a document. -/
inductive Place where
  | schema
  | literal
  | pathItem
  | operation
  | parameter
  | body
  | response
  | mediaType
  | encoding
  /-- A mapping with names that the author chose. -/
  | each (place : Place)
  | items (place : Place)
  | other
  deriving DecidableEq

namespace Place

/-- The fields of an object that are of interest. -/
def fields : Place → List (String × Place)
  | pathItem => ("parameters", items parameter) :: ("additionalOperations", each operation) ::
      httpMethods.map fun method => (method, operation)
  | operation => [("parameters", items parameter), ("requestBody", body), ("responses", each response),
      ("callbacks", each (each pathItem))]
  | parameter => [("schema", schema), ("content", each mediaType), ("example", literal),
      ("examples", literal)]
  | body => [("content", each mediaType)]
  | response => [("headers", each parameter), ("content", each mediaType)]
  | mediaType => [("schema", schema), ("itemSchema", schema), ("encoding", each encoding),
      ("example", literal), ("examples", literal)]
  | encoding => [("headers", each parameter)]
  | _ => []

/-- What stands at a key. -/
def field : Place → Scalar → Place
  | each place, _ => place
  | place, .text key => (place.fields.lookup key).getD other
  | _, _ => other

/-- What stands there is neither a schema nor an example. -/
def isPart : Place → Bool
  | schema | literal => false
  | each place | items place => place.isPart
  | _ => true

end Place

/-- The key can be taken for something else than a name. -/
def isReserved (key : Scalar) : Bool :=
  match isOpaqueKey key with
  | .ok false => isSchemaKey key
  | _ => true

theorem isReserved_eq_false {key : Scalar} (h : isReserved key = false) :
    isOpaqueKey key = .ok false ∧ isSchemaKey key = false := by
  unfold isReserved at h
  split at h
  · rename_i ho
    exact ⟨ho, h⟩
  · cases h

/-- A pass takes what stands at a key for what it is. -/
inductive Place.Treated (key : Scalar) : Place → Prop
  | schema (h : isOpaqueKey key = .ok false) (hs : isSchemaKey key = true) : Treated key .schema
  | literal (h : isOpaqueKey key = .ok true) : Treated key .literal
  | other : Treated key .other
  | part {place : Place} (hplace : place.isPart = true) (h : isOpaqueKey key = .ok false)
      (hs : isSchemaKey key = false) : Treated key place

/-- The places with fields. -/
def Place.objects : List Place := [pathItem, operation, parameter, body, response, mediaType, encoding]

/-- The fields of the layout are told apart by their keys. -/
theorem Place.treated_fields {place : Place} (hplace : place ∈ objects) {key : String} {inner : Place}
    (hentry : (key, inner) ∈ place.fields) : Treated (.text key) inner := by
  have hall : ∀ place ∈ objects, ∀ entry ∈ place.fields,
      (entry.2 = .schema ∧ (isOpaqueKey (.text entry.1)).toOption = some false ∧
          isSchemaKey (.text entry.1) = true) ∨
        (entry.2 = .literal ∧ (isOpaqueKey (.text entry.1)).toOption = some true) ∨
        (entry.2.isPart = true ∧ isReserved (.text entry.1) = false) := by
    decide
  rcases hall place hplace _ hentry with ⟨rfl, ho, hs⟩ | ⟨rfl, ho⟩ | ⟨hpart, hr⟩
  · exact .schema (eq_ok_of_toOption ho) hs
  · exact .literal (eq_ok_of_toOption ho)
  · exact .part hpart (isReserved_eq_false hr).1 (isReserved_eq_false hr).2

/-- **A pass takes what stands at a key for what it is**, a chosen name apart that is reserved. -/
theorem Place.treated_field {place : Place} {key : Scalar} (hplace : place.isPart = true)
    (hname : ∀ inner, place = .each inner → isReserved key = false) : Treated key (place.field key) := by
  have hlookup : ∀ key, place ∈ objects → Treated (.text key) ((place.fields.lookup key).getD other) := by
    intro key hobject
    cases hfound : place.fields.lookup key with
    | none => exact .other
    | some inner =>
      exact treated_fields hobject (mem_of_lookup hfound)
  cases place with
  | schema | literal => cases hplace
  | each inner =>
    obtain ⟨ho, hs⟩ := isReserved_eq_false (hname inner rfl)
    exact .part hplace ho hs
  | other | items => cases key <;> exact .other
  | _ =>
    cases key with
    | text key => exact hlookup key (by decide)
    | _ => exact .other

/-! ### Walking along the layout -/

/-- What is collected at the places of a document. -/
structure Visitor (α : Type) where
  schema : Value → List α
  literal : Value → List α
  /-- At a name that the author chose. -/
  name : Scalar → List α
  /-- At the shared examples. -/
  examples : Value → List α

/-- What is collected at a key itself. -/
def Visitor.atKey {α : Type} (vis : Visitor α) : Place → Scalar → List α
  | .each _, key => vis.name key
  | _, _ => []

section Collect

variable {α : Type}

mutual

/-- What is collected at a place and inside it. -/
def collect (vis : Visitor α) (place : Place) : Value → List α
  | .mapping entries => collectEntries vis place entries
  | .list items =>
    match place with
    | .items place => collectItems vis place items
    | _ => []
  | .scalar _ => []
  | .set _ => []

/-- What is collected at the entries of a place. -/
def collectEntries (vis : Visitor α) (place : Place) : List (Scalar × Value) → List α
  | [] => []
  | (key, v) :: rest =>
    vis.atKey place key ++
      (match place.field key with
        | .schema => vis.schema v
        | .literal => vis.literal v
        | .other => []
        | inner => collect vis inner v) ++ collectEntries vis place rest

/-- What is collected at the items of a list. -/
def collectItems (vis : Visitor α) (place : Place) : List Value → List α
  | [] => []
  | v :: rest => collect vis place v ++ collectItems vis place rest

end

/-- What is collected at what stands at a key. -/
def collectAt (vis : Visitor α) (place : Place) (v : Value) : List α :=
  match place with
  | .schema => vis.schema v
  | .literal => vis.literal v
  | .other => []
  | inner => collect vis inner v

theorem collectEntries_cons (vis : Visitor α) (place : Place) (key : Scalar) (v : Value)
    (rest : List (Scalar × Value)) :
    collectEntries vis place ((key, v) :: rest) =
      vis.atKey place key ++ collectAt vis (place.field key) v ++ collectEntries vis place rest := by
  rw [collectEntries]
  rfl

/-- What stands at a key is of no interest, or is gone through as any part is. -/
theorem collectAt_eq {place : Place} (h : place.isPart = true) :
    place = .other ∨ ∀ (vis : Visitor α) (v : Value), collectAt vis place v = collect vis place v := by
  cases place with
  | schema | literal => cases h
  | other => exact .inl rfl
  | _ => exact .inr fun _ _ => rfl

/-- A list is gone through only where one is expected. -/
theorem collect_list (place : Place) :
    (∃ inner, place = .items inner) ∨
      ∀ (vis : Visitor α) (items : List Value), collect vis place (.list items) = [] := by
  cases place with
  | items inner => exact .inl ⟨inner, rfl⟩
  | _ =>
    refine .inr fun vis items => ?_
    rw [collect]
    exact nofun

theorem collect_other (vis : Visitor α) (v : Value) : collect vis .other v = [] := by
  cases v with
  | mapping entries =>
    rw [collect]
    induction entries with
    | nil => rw [collectEntries]
    | cons e rest ih =>
      have hfield : Place.other.field e.1 = .other := by cases e.1 <;> rfl
      rw [collectEntries_cons, ih, hfield]
      rfl
  | list => rcases collect_list Place.other with ⟨inner, h⟩ | h
            · cases h
            · exact h vis _
  | scalar | set => rw [collect]

end Collect

/-- The names that the author chose. -/
def nameVisitor : Visitor Scalar := ⟨fun _ => [], fun _ => [], fun key => [key], fun _ => []⟩

/-- The names are told apart from other keys. -/
def AreNames (names : List Scalar) : Prop := ∀ name ∈ names, isReserved name = false

theorem treated_of_areNames {place : Place} (hplace : place.isPart = true) {key : Scalar}
    (h : AreNames (nameVisitor.atKey place key)) : Place.Treated key (place.field key) := by
  refine Place.treated_field hplace fun inner heq => ?_
  subst heq
  exact h key (List.mem_singleton_self key)

/-! ### What a pass makes of a part -/

section Part

variable {α : Type} {vis : Visitor α} {pass : Pass}

/-- What is collected when the pass has been there. -/
def Visitor.after (vis : Visitor α) (pass : Pass) : Visitor α :=
  { vis with schema := fun v => vis.schema (rewriteSchema pass v) }

mutual

theorem collect_rewritePart {place : Place} (hplace : place.isPart = true) (v : Value) {v' : Value}
    (hv : rewritePart pass v = .ok v') (hnames : AreNames (collect nameVisitor place v)) :
    collect vis place v' = collect (vis.after pass) place v := by
  cases v with
  | mapping entries =>
    rw [rewritePart, bind_eq_ok] at hv
    obtain ⟨entries', he, hv⟩ := hv
    rw [pure_eq_ok.mp hv, collect, collect]
    rw [collect] at hnames
    exact collectEntries_rewriteParts hplace entries he hnames
  | list items =>
    rw [rewritePart, bind_eq_ok] at hv
    obtain ⟨items', hi, hv⟩ := hv
    rw [pure_eq_ok.mp hv]
    rcases collect_list place with ⟨inner, rfl⟩ | hnone
    · rw [collect, collect]
      rw [collect] at hnames
      exact @collectItems_rewriteItems inner hplace items items' hi hnames
    · rw [hnone, hnone]
  | scalar | set =>
    rw [rewritePart] at hv
    cases hv
    rw [collect, collect]
termination_by sizeOf v

theorem collectEntries_rewriteParts {place : Place} (hplace : place.isPart = true)
    (entries : List (Scalar × Value)) {entries' : List (Scalar × Value)}
    (he : rewriteParts pass entries = .ok entries')
    (hnames : AreNames (collectEntries nameVisitor place entries)) :
    collectEntries vis place entries' = collectEntries (vis.after pass) place entries := by
  match entries with
  | [] =>
    rw [rewriteParts] at he
    cases he
    rw [collectEntries, collectEntries]
  | (key, v) :: rest =>
    obtain ⟨isOpaque, v', rest', ho, hv, hr, rfl⟩ := rewriteParts_cons_eq_ok he
    rw [collectEntries_cons, AreNames, List.forall_mem_append, List.forall_mem_append] at hnames
    obtain ⟨⟨hkey, hinner⟩, hrest⟩ := hnames
    have htreated := treated_of_areNames hplace hkey
    rw [collectEntries_cons, collectEntries_cons, collectEntries_rewriteParts hplace rest hr hrest]
    congr 2
    generalize place.field key = inner at htreated hinner
    cases htreated with
    | schema ho' hs =>
      cases ho.symm.trans ho'
      rw [if_neg Bool.false_ne_true, if_pos hs] at hv
      cases hv
      rfl
    | literal ho' =>
      cases ho.symm.trans ho'
      rw [if_pos rfl] at hv
      cases hv
      rfl
    | other => rfl
    | part hpart ho' hs =>
      cases ho.symm.trans ho'
      rw [if_neg Bool.false_ne_true, hs, if_neg Bool.false_ne_true] at hv
      rcases collectAt_eq hpart with rfl | heq
      · rfl
      · rcases collectAt_eq hpart with rfl | heq'
        · rfl
        · rw [heq, heq, collect_rewritePart hpart v hv (heq' nameVisitor v ▸ hinner)]
termination_by sizeOf entries

theorem collectItems_rewriteItems {place : Place} (hplace : place.isPart = true) (items : List Value)
    {items' : List Value} (hi : rewriteItems pass items = .ok items')
    (hnames : AreNames (collectItems nameVisitor place items)) :
    collectItems vis place items' = collectItems (vis.after pass) place items := by
  match items with
  | [] =>
    rw [rewriteItems] at hi
    cases hi
    rw [collectItems, collectItems]
  | v :: rest =>
    obtain ⟨v', rest', hv, hr, rfl⟩ := rewriteItems_cons_eq_ok hi
    rw [collectItems, AreNames, List.forall_mem_append] at hnames
    rw [collectItems, collectItems, collect_rewritePart hplace v hv hnames.1,
      collectItems_rewriteItems hplace rest hr hnames.2]
termination_by sizeOf items

end

end Part

/-- The schemas at places of the layout, with all schemas inside them. -/
def schemaVisitor : Visitor Value := ⟨schemasIn, fun _ => [], fun _ => [], fun _ => []⟩

mutual

/-- **A pass visits the schemas of the layout.** -/
theorem mem_schemasOfPart {place : Place} (hplace : place.isPart = true) (v : Value)
    (hnames : AreNames (collect nameVisitor place v)) :
    ∀ n ∈ collect schemaVisitor place v, n ∈ schemasOfPart v := by
  cases v with
  | mapping entries =>
    rw [collect, schemasOfPart]
    rw [collect] at hnames
    exact mem_schemasOfParts hplace entries hnames
  | list items =>
    rcases collect_list place with ⟨inner, rfl⟩ | hnone
    · rw [collect, schemasOfPart]
      rw [collect] at hnames
      exact @mem_schemasOfItems inner hplace items hnames
    · rw [hnone]
      exact List.forall_mem_nil _
  | scalar | set =>
    rw [collect]
    exact List.forall_mem_nil _
termination_by sizeOf v

theorem mem_schemasOfParts {place : Place} (hplace : place.isPart = true)
    (entries : List (Scalar × Value)) (hnames : AreNames (collectEntries nameVisitor place entries)) :
    ∀ n ∈ collectEntries schemaVisitor place entries, n ∈ schemasOfParts entries := by
  match entries with
  | [] =>
    rw [collectEntries]
    exact List.forall_mem_nil _
  | (key, v) :: rest =>
    rw [collectEntries_cons, AreNames, List.forall_mem_append, List.forall_mem_append] at hnames
    obtain ⟨⟨hkey, hinner⟩, hrest⟩ := hnames
    have htreated := treated_of_areNames hplace hkey
    have hnone : schemaVisitor.atKey place key = [] := by cases place <;> rfl
    rw [collectEntries_cons, hnone, List.nil_append, schemasOfParts]
    refine List.forall_mem_append.mpr ⟨fun n hn => List.mem_append_left _ ?_,
      fun n hn => List.mem_append_right _ (mem_schemasOfParts hplace rest hrest n hn)⟩
    generalize place.field key = inner at htreated hinner hn
    cases htreated with
    | schema ho hs =>
      rw [ho]
      simp only [hs, if_true]
      exact hn
    | literal => cases hn
    | other => cases hn
    | part hpart ho hs =>
      rw [ho]
      simp only [hs, Bool.false_eq_true, if_false]
      rcases collectAt_eq hpart with rfl | heq
      · cases hn
      · rcases collectAt_eq hpart with rfl | heq'
        · cases hn
        · exact mem_schemasOfPart hpart v (heq' nameVisitor v ▸ hinner) n (heq schemaVisitor v ▸ hn)
termination_by sizeOf entries

theorem mem_schemasOfItems {place : Place} (hplace : place.isPart = true) (items : List Value)
    (hnames : AreNames (collectItems nameVisitor place items)) :
    ∀ n ∈ collectItems schemaVisitor place items, n ∈ schemasOfItems items := by
  match items with
  | [] =>
    rw [collectItems]
    exact List.forall_mem_nil _
  | v :: rest =>
    rw [collectItems, AreNames, List.forall_mem_append] at hnames
    rw [collectItems, schemasOfItems]
    exact List.forall_mem_append.mpr
      ⟨fun n hn => List.mem_append_left _ (mem_schemasOfPart hplace v hnames.1 n hn),
        fun n hn => List.mem_append_right _ (mem_schemasOfItems hplace rest hnames.2 n hn)⟩
termination_by sizeOf items

end

/-! ### Whole documents -/

/-- What the families of components are. -/
def familyPlaces : List (String × Place) :=
  [("parameters", .each .parameter), ("headers", .each .parameter), ("requestBodies", .each .body),
   ("responses", .each .response), ("pathItems", .each .pathItem), ("callbacks", .each (.each .pathItem)),
   ("mediaTypes", .each .mediaType)]

/-- What the sections of a document are. -/
def sectionPlaces : List (String × Place) :=
  [("paths", .each .pathItem), ("webhooks", .each .pathItem)]

/-- What stands at a key, by a table. -/
def placeAt (places : List (String × Place)) : Scalar → Place
  | .text key => (places.lookup key).getD .other
  | _ => .other

theorem isPart_placeAt {places : List (String × Place)} (h : ∀ e ∈ places, e.2.isPart = true) (key : Scalar) :
    (placeAt places key).isPart = true := by
  cases key with
  | text key =>
    rw [placeAt]
    cases hfound : places.lookup key with
    | none => rfl
    | some place =>
      exact h (key, place) (mem_of_lookup hfound)
  | _ => rfl

theorem isPart_familyPlaces (family : Scalar) : (placeAt familyPlaces family).isPart = true :=
  isPart_placeAt (by decide) family

theorem isPart_sectionPlaces (key : Scalar) : (placeAt sectionPlaces key).isPart = true :=
  isPart_placeAt (by decide) key

section Document

variable {α : Type}

/-- What is collected in a family of components. -/
def collectFamily (vis : Visitor α) : Scalar → Value → List α
  | .text "schemas", .mapping schemas => schemas.flatMap fun e => vis.schema e.2
  | .text "examples", v => vis.examples v
  | family, v => collect vis (placeAt familyPlaces family) v

/-- What is collected in a section of a document. -/
def collectSection (vis : Visitor α) : Scalar → Value → List α
  | .text "components", .mapping families => families.flatMap fun e => collectFamily vis e.1 e.2
  | key, v => collect vis (placeAt sectionPlaces key) v

/-- What is collected in a document. -/
def collectDocument (vis : Visitor α) (document : Entries) : List α :=
  document.flatMap fun e => collectSection vis e.1 e.2

theorem collectFamily_of_part (vis : Visitor α) {family : Scalar} {v : Value}
    (h : family = .text "schemas" → v.isMapping = false) (he : family ≠ .text "examples") :
    collectFamily vis family v = collect vis (placeAt familyPlaces family) v := by
  unfold collectFamily
  split
  · cases h rfl
  · exact absurd rfl he
  · rfl

theorem collectSection_of_part (vis : Visitor α) {key : Scalar} {v : Value}
    (h : key = .text "components" → v.isMapping = false) :
    collectSection vis key v = collect vis (placeAt sectionPlaces key) v := by
  unfold collectSection
  split
  · cases h rfl
  · rfl

/-- Definitions belong to another layout. -/
theorem collectSection_definitions (vis : Visitor α) (v : Value) :
    collectSection vis (.text "definitions") v = [] := by
  have hkey : Scalar.text "definitions" ≠ .text "components" := by decide
  have hplace : placeAt sectionPlaces (.text "definitions") = .other := by decide
  rw [collectSection_of_part vis fun h => absurd h hkey, hplace, collect_other]

end Document

/-- The schemas in the shared examples, if a pass takes them for some. -/
def lookalikeVisitor : Visitor Value := ⟨fun _ => [], fun _ => [], fun _ => [], schemasOfPart⟩

/-- The examples of schemas and at places of the layout. -/
def exampleVisitor : Visitor Value := ⟨examplesIn, fun v => [v], fun _ => [], fun v => [v]⟩

/-- The passes tell what they meet apart, by the names and the shared examples. -/
structure AreClear (names : List Scalar) (lookalikes : List Value) : Prop where
  names : AreNames names
  examples : ∀ n ∈ lookalikes, IsNormal n

theorem areClear_append {names names' : List Scalar} {lookalikes lookalikes' : List Value} :
    AreClear (names ++ names') (lookalikes ++ lookalikes') ↔
      AreClear names lookalikes ∧ AreClear names' lookalikes' := by
  constructor
  · rintro ⟨hn, he⟩
    rw [AreNames, List.forall_mem_append] at hn
    rw [List.forall_mem_append] at he
    exact ⟨⟨hn.1, he.1⟩, ⟨hn.2, he.2⟩⟩
  · rintro ⟨⟨hn, he⟩, ⟨hn', he'⟩⟩
    exact ⟨List.forall_mem_append.mpr ⟨hn, hn'⟩, List.forall_mem_append.mpr ⟨he, he'⟩⟩

section Passes

variable {α : Type} {vis : Visitor α} {pass : Pass}

theorem schemasOfNamed_eq_flatMap (schemas : List (Scalar × Value)) :
    schemasOfNamed schemas = schemas.flatMap fun e => schemasIn e.2 := by
  induction schemas with
  | nil => rw [schemasOfNamed, List.flatMap_nil]
  | cons e rest ih => rw [schemasOfNamed, List.flatMap_cons, ih]

theorem collectFamily_rewriteFamily (hpass : pass ∈ passes) {family : Scalar} {v v' : Value}
    (hv : rewriteFamily pass family v = .ok v')
    (hclear : AreClear (collectFamily nameVisitor family v) (collectFamily lookalikeVisitor family v)) :
    collectFamily vis family v' = collectFamily (vis.after pass) family v := by
  rcases family_cases family v with ⟨schemas, rfl, rfl⟩ | hpart
  · rw [rewriteFamily] at hv
    cases hv
    rw [collectFamily, collectFamily, rewriteNamed_eq_map, List.flatMap_map]
    rfl
  · rw [rewriteFamily_of_part hpart] at hv
    by_cases he : family = .text "examples"
    · subst he
      rw [rewritePart_eq_self v hv fun n hn => pass_eq_self hpass (hclear.examples n hn)]
      rfl
    · have hpart' := rewritePart_isMapping hv ▸ hpart
      rw [collectFamily_of_part vis hpart' he, collectFamily_of_part _ hpart he]
      exact collect_rewritePart (isPart_familyPlaces family) v hv
        (collectFamily_of_part nameVisitor hpart he ▸ hclear.names)

theorem collect_rewriteComponents (hpass : pass ∈ passes) {families families' : Entries}
    (hf : rewriteComponents pass families = .ok families')
    (hclear : AreClear (families.flatMap fun e => collectFamily nameVisitor e.1 e.2)
      (families.flatMap fun e => collectFamily lookalikeVisitor e.1 e.2)) :
    (families'.flatMap fun e => collectFamily vis e.1 e.2) =
      families.flatMap fun e => collectFamily (vis.after pass) e.1 e.2 := by
  induction families generalizing families' with
  | nil =>
    rw [rewriteComponents] at hf
    cases hf
    rfl
  | cons e rest ih =>
    obtain ⟨v', rest', hv, hr, rfl⟩ := rewriteComponents_cons_eq_ok hf
    obtain ⟨hfirst, hrest⟩ := areClear_append.mp hclear
    rw [List.flatMap_cons, List.flatMap_cons, ih hr hrest, collectFamily_rewriteFamily hpass hv hfirst]

theorem collectSection_rewriteSection (hpass : pass ∈ passes) {key : Scalar} {v v' : Value}
    (hv : rewriteSection pass key v = .ok v')
    (hclear : AreClear (collectSection nameVisitor key v) (collectSection lookalikeVisitor key v)) :
    collectSection vis key v' = collectSection (vis.after pass) key v := by
  rcases section_cases key v with ⟨families, rfl, rfl⟩ | ⟨schemas, rfl, rfl⟩ | hpart
  · obtain ⟨families', hf, rfl⟩ := map_eq_ok.mp hv
    exact collect_rewriteComponents hpass hf hclear
  · rw [rewriteSection] at hv
    cases hv
    rw [collectSection_definitions, collectSection_definitions]
  · have hpart' := fun h => hpart (.inl h)
    rw [rewriteSection_of_part hpart] at hv
    rw [collectSection_of_part vis (rewritePart_isMapping hv ▸ hpart'), collectSection_of_part _ hpart']
    exact collect_rewritePart (isPart_sectionPlaces key) v hv
      (collectSection_of_part nameVisitor hpart' ▸ hclear.names)

/-- **What is collected in a document that a pass has been through** is what is collected in the document
before, with the schemas rewritten. -/
theorem collectDocument_rewriteDocument (hpass : pass ∈ passes) {document document' : Entries}
    (hd : rewriteDocument pass document = .ok document')
    (hclear : AreClear (collectDocument nameVisitor document) (collectDocument lookalikeVisitor document)) :
    collectDocument vis document' = collectDocument (vis.after pass) document := by
  induction document generalizing document' with
  | nil =>
    rw [rewriteDocument] at hd
    cases hd
    rfl
  | cons e rest ih =>
    obtain ⟨v', rest', hv, hr, rfl⟩ := rewriteDocument_cons_eq_ok hd
    obtain ⟨hfirst, hrest⟩ := areClear_append.mp hclear
    rw [collectDocument, collectDocument, List.flatMap_cons, List.flatMap_cons,
      collectSection_rewriteSection hpass hv hfirst]
    exact congrArg _ (ih hr hrest)

end Passes

/-! ### Canonical documents -/

/-- The schemas of the layout, with all schemas inside them. -/
def layoutSchemas (document : Entries) : List Value := collectDocument schemaVisitor document

/-- The examples of the layout: those of its schemas, those at its parts and the shared ones. -/
def layoutExamples (document : Entries) : List Value := collectDocument exampleVisitor document

/-- No chosen name can be taken for something else, and nothing in the shared examples for a schema that a
pass changes. -/
def IsClear (document : Entries) : Prop :=
  AreClear (collectDocument nameVisitor document) (collectDocument lookalikeVisitor document)

theorem mem_schemasOfFamily {family : Scalar} {v : Value}
    (hnames : AreNames (collectFamily nameVisitor family v)) :
    ∀ n ∈ collectFamily schemaVisitor family v, n ∈ schemasOfFamily family v := by
  rcases family_cases family v with ⟨schemas, rfl, rfl⟩ | hpart
  · rw [schemasOfFamily, schemasOfNamed_eq_flatMap]
    exact fun n hn => hn
  · by_cases he : family = .text "examples"
    · subst he
      exact List.forall_mem_nil _
    · rw [collectFamily_of_part _ hpart he, schemasOfFamily_of_part hpart]
      exact mem_schemasOfPart (isPart_familyPlaces family) v
        (collectFamily_of_part nameVisitor hpart he ▸ hnames)

theorem mem_schemasOfComponents {families : Entries}
    (hnames : AreNames (families.flatMap fun e => collectFamily nameVisitor e.1 e.2)) :
    ∀ n ∈ families.flatMap fun e => collectFamily schemaVisitor e.1 e.2,
      n ∈ schemasOfComponents families := by
  induction families with
  | nil => exact List.forall_mem_nil _
  | cons e rest ih =>
    obtain ⟨hfirst, hrest⟩ := List.forall_mem_append.mp hnames
    exact List.forall_mem_append.mpr
      ⟨fun n hn => List.mem_append_left _ (mem_schemasOfFamily hfirst n hn),
        fun n hn => List.mem_append_right _ (ih hrest n hn)⟩

theorem mem_schemasOfSection {key : Scalar} {v : Value}
    (hnames : AreNames (collectSection nameVisitor key v)) :
    ∀ n ∈ collectSection schemaVisitor key v, n ∈ schemasOfSection key v := by
  rcases section_cases key v with ⟨families, rfl, rfl⟩ | ⟨schemas, rfl, rfl⟩ | hpart
  · exact mem_schemasOfComponents hnames
  · rw [collectSection_definitions]
    exact List.forall_mem_nil _
  · have hpart' := fun h => hpart (.inl h)
    rw [collectSection_of_part _ hpart', schemasOfSection_of_part hpart]
    exact mem_schemasOfPart (isPart_sectionPlaces key) v (collectSection_of_part nameVisitor hpart' ▸ hnames)

theorem mem_schemasOfDocument {document : Entries}
    (hnames : AreNames (collectDocument nameVisitor document)) :
    ∀ n ∈ layoutSchemas document, n ∈ schemasOfDocument document := by
  induction document with
  | nil => exact List.forall_mem_nil _
  | cons e rest ih =>
    obtain ⟨hfirst, hrest⟩ := List.forall_mem_append.mp hnames
    exact List.forall_mem_append.mpr
      ⟨fun n hn => List.mem_append_left _ (mem_schemasOfSection hfirst n hn),
        fun n hn => List.mem_append_right _ (ih hrest n hn)⟩

section Run

variable {pass : Pass} {document document' : Entries}

theorem IsClear.rewriteDocument (h : IsClear document) (hpass : pass ∈ passes)
    (hd : rewriteDocument pass document = .ok document') : IsClear document' := by
  rw [IsClear, collectDocument_rewriteDocument hpass hd h, collectDocument_rewriteDocument hpass hd h]
  exact h

theorem layoutExamples_rewriteDocument (h : IsClear document) (hpass : pass ∈ passes)
    (hd : rewriteDocument pass document = .ok document') :
    layoutExamples document' = layoutExamples document := by
  have hafter : exampleVisitor.after pass = exampleVisitor := by
    rw [Visitor.after, exampleVisitor]
    congr 1
    exact funext fun v => examplesIn_rewriteSchema (spares_of_mem_passes hpass) v
  rw [layoutExamples, collectDocument_rewriteDocument hpass hd h, hafter, layoutExamples]

/-- What every pass preserves, all passes preserve. -/
theorem layoutExamples_runPasses (h : IsClear document) (hd : runPasses document = .ok document') :
    IsClear document' ∧ layoutExamples document' = layoutExamples document := by
  obtain ⟨expanded, folded, hexpanded, hfolded, hnarrowed⟩ := runPasses_eq_ok hd
  have hexpand : expandFlag ∈ passes := by simp [passes]
  have hfold : foldNullable ∈ passes := by simp [passes]
  have hnarrow : foldConst ∈ passes := by simp [passes]
  have h₁ := h.rewriteDocument hexpand hexpanded
  have h₂ := h₁.rewriteDocument hfold hfolded
  exact ⟨h₂.rewriteDocument hnarrow hnarrowed, (layoutExamples_rewriteDocument h₂ hnarrow hnarrowed).trans
    ((layoutExamples_rewriteDocument h₁ hfold hfolded).trans
      (layoutExamples_rewriteDocument h hexpand hexpanded))⟩

end Run

/-- **Every schema of a clear document gets into normal form, and every example stays.** -/
theorem normalize_rewrites {document : Entries} {version : String} {c : Canonical}
    (hversion : Dialect.detect document = .ok (.openApi version)) (hc : normalize document = .ok c)
    (hclear : IsClear document) :
    (∀ n ∈ layoutSchemas c.data, IsNormal n) ∧ layoutExamples c.data = layoutExamples document := by
  obtain ⟨dialect, lifted, hdialect, hlifted, hdata⟩ := normalize_eq_ok hc
  cases hdialect.symm.trans hversion
  cases hlifted
  obtain ⟨hclear', hexamples⟩ := layoutExamples_runPasses hclear hdata
  exact ⟨fun n hn => runPasses_normal hdata n (mem_schemasOfDocument hclear'.names n hn), hexamples⟩

/-- A parameter with an example and a nullable schema, next to a schema whose name is no key of its own. -/
def pricedSample : Entries :=
  [("openapi", .text "3.0.3"),
   ("paths", .object [("/items", .object [("get", .object [
     ("parameters", .list [.object [("name", .text "limit"), ("in", .text "query"),
       ("example", .object [("const", .scalar (.int 5)), ("schema", .bool true)]),
       ("schema", .object [("type", .text "integer"), ("nullable", .bool true)])]]),
     ("responses", .object [("200", .object [("content", .object [("application/json", .object [
       ("schema", .bool true), ("examples", .object [("one", .object [("nullable", .bool true)])])])])])])])])]),
   ("components", .object [
     ("schemas", .object [("example", .object [("const", .scalar (.int 1)),
       ("example", .object [("nullable", .bool true)])])]),
     ("examples", .object [("priced", .object [("value", .object [("nullable", .bool true)])])])])]

/-- The canonical form of the document. -/
def pricedSampleCanonical : Canonical where
  data := [("openapi", .text "3.0.3"),
   ("paths", .object [("/items", .object [("get", .object [
     ("parameters", .list [.object [("name", .text "limit"), ("in", .text "query"),
       ("example", .object [("const", .scalar (.int 5)), ("schema", .bool true)]),
       ("schema", .object [("type", .list [.text "integer", .text "null"])])]]),
     ("responses", .object [("200", .object [("content", .object [("application/json", .object [
       ("schema", .object []), ("examples", .object [("one", .object [("nullable", .bool true)])])])])])])])])]),
   ("components", .object [
     ("schemas", .object [("example", .object [
       ("example", .object [("nullable", .bool true)]),
       ("enum", .list [.scalar (.int 1)]), ("type", .text "integer")])]),
     ("examples", .object [("priced", .object [("value", .object [("nullable", .bool true)])])])])]
  dialect := .openApi "3.0.3"

theorem normalize_rewrites_priced :
    Dialect.detect pricedSample = .ok (.openApi "3.0.3") ∧ normalize pricedSample = .ok pricedSampleCanonical ∧
      IsClear pricedSample ∧ (∀ n ∈ layoutSchemas pricedSampleCanonical.data, IsNormal n) ∧
      layoutExamples pricedSampleCanonical.data = layoutExamples pricedSample := by
  have hversion : Dialect.detect pricedSample = .ok (.openApi "3.0.3") := by rfl
  have hc : normalize pricedSample = .ok pricedSampleCanonical := by rfl
  have hclear : IsClear pricedSample := by
    refine ⟨?_, ?_⟩
    · unfold AreNames
      decide
    · have hnone : collectDocument lookalikeVisitor pricedSample = [] := by decide
      rw [hnone]
      exact List.forall_mem_nil _
  exact ⟨hversion, hc, hclear, normalize_rewrites hversion hc hclear⟩

/-- A shared parameter that is named as an example, and a shared example that has a schema of its own. -/
def misnamedSample : Entries :=
  [("openapi", .text "3.0.3"),
   ("components", .object [
     ("parameters", .object [("example", .object [("name", .text "limit"), ("in", .text "query"),
       ("schema", .object [("type", .text "string"), ("nullable", .bool true)])])]),
     ("examples", .object [("flag", .object [("value", .object [("schema", .bool true)])])])])]

/-- The shared example has been rewritten, and the parameter's schema has not. -/
def misnamedSampleCanonical : Canonical where
  data := [("openapi", .text "3.0.3"),
   ("components", .object [
     ("parameters", .object [("example", .object [("name", .text "limit"), ("in", .text "query"),
       ("schema", .object [("type", .text "string"), ("nullable", .bool true)])])]),
     ("examples", .object [("flag", .object [("value", .object [("schema", .object [])])])])])]
  dialect := .openApi "3.0.3"

/-- **A name like a key hides a schema, and a key like one of a schema changes an example.** -/
theorem normalize_rewrites_fails :
    Dialect.detect misnamedSample = .ok (.openApi "3.0.3") ∧
      normalize misnamedSample = .ok misnamedSampleCanonical ∧
      (∃ n ∈ layoutSchemas misnamedSampleCanonical.data, ¬ IsNormal n) ∧
      layoutExamples misnamedSampleCanonical.data ≠ layoutExamples misnamedSample := by
  refine ⟨rfl, rfl, ⟨.object [("type", .text "string"), ("nullable", .bool true)], by decide, ?_⟩,
    by decide⟩
  rintro ⟨-, h⟩
  exact Bool.false_ne_true ((h "nullable" (by simp [nullableKeys])).symm.trans (by decide))

end ContractSync.Contract
