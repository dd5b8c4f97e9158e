import ContractSync.Proofs.Model.Enumerations
import ContractSync.Proofs.Name.Component
import ContractSync.Proofs.Reference.Addressing
import ContractSync.Proofs.Schema.Unions
import ContractSync.Proofs.Sync.Models

/-!
# The tags of variants

A union with a discriminator tells its variants apart by a tag: the value that a variant is renamed to, else its
name (`VariantLabel.tag`), as the declaration is read. Where no entry of a mapping leads to a component, messages
carry the name of the component itself.

**The tag of a variant without values is the name of its component exactly if that name stays as it is for types
and no member in front asks for it** (`tag_eq_component_iff`). A name that is converted, or made distinct by a
number, is lost: no attribute gives it back.
-/

/-! ### References to components -/

namespace ContractSync.Reference

/-- A local pointer has the fragment of the reference behind its hash mark. -/
theorem toLocal_eq_some {exact pointer : String} {self : Option String} (h : toLocal exact self = some pointer) :
    ∃ fragment, (ofString exact).fragment = some fragment ∧ pointer.toList = '#' :: fragment.toList := by
  unfold toLocal at h
  simp only at h
  split at h
  · rename_i hkind
    cases h
    unfold ofString at hkind ⊢
    cases hcut : Text.cutAt '#' exact.toList with
    | mk document fragment =>
      rw [hcut] at hkind
      simp only at hkind ⊢
      split at hkind
      · rename_i hparts
        rw [Bool.and_eq_true, List.isEmpty_iff] at hparts
        obtain ⟨rfl, hsome⟩ := hparts
        obtain ⟨fragment, rfl⟩ := Option.isSome_iff_exists.mp hsome
        refine ⟨String.ofList fragment, rfl, ?_⟩
        rw [Text.eq_of_cutAt_eq_some hcut, String.toList_ofList]
        rfl
      · split at hkind <;> cases hkind
  · obtain ⟨fragment, hfragment, h⟩ := Option.bind_eq_some_iff.mp h
    obtain ⟨document, -, h⟩ := Option.bind_eq_some_iff.mp h
    split at h
    · cases h
      exact ⟨fragment, hfragment, String.toList_append⟩
    · cases h

/-- The name that a reference to a component suggests is that of the component. -/
theorem typeName_of_componentName {exact family component : String} {self : Option String}
    (h : componentName exact self family = some component) : typeName exact = .ok component := by
  obtain ⟨pointer, name, hpointer, hpieces, rfl, hname⟩ := componentName_eq_some_iff.mp h
  obtain ⟨fragment, hfragment, hwritten⟩ := toLocal_eq_some hpointer
  -- The pieces are those of the fragment without the slashes in front.
  have hlast : Text.afterLast '/' fragment.toList = name := by
    refine @Text.afterLast_of_suffix _ _ ["components".toList, family.toList] _ _ hpieces (List.cons_ne_nil _ _) ?_
    rw [hwritten, List.dropWhile_cons_of_pos (by rfl)]
    exact (List.dropWhile_suffix _).trans (List.dropWhile_suffix _)
  have hne : name ≠ [] := by
    rintro rfl
    exact hname (by decide +kernel)
  rw [typeName, hfragment]
  simp only [Option.map_some, Option.getD_some, hlast]
  exact if_pos (by simpa using hne)

end ContractSync.Reference

namespace ContractSync.Schema

open ContractSync.Contract (Canonical)
open ContractSync.Document

/-! ### The name of a variant -/

/-- What tells the variant from the others in messages: what it is renamed to, else its name. -/
def VariantLabel.tag (label : VariantLabel) : String := label.rename.getD (Name.bare label.name)

/-- The name of a variant with a component is a type name with a number, and keeps no marks. -/
theorem bare_numbered_typeName (component : String) (n : Nat) :
    Name.bare (Name.numbered (Name.typeName component) n) = Name.numbered (Name.typeName component) n := by
  refine Name.bare_eq_self fun c hc => ?_
  unfold Name.numbered at hc
  split at hc
  · exact (Name.isWord_typeName component).chars c hc
  · rw [Name.suffixed_toList] at hc
    revert c
    exact List.forall_mem_append.mpr ⟨(Name.isWord_typeName component).chars,
      List.forall_mem_cons.mpr ⟨by decide, Name.isWordChar_of_mem_toString n⟩⟩

variable {doc : Canonical} {resolve next : Resolver} {mapping : Entries} {alternatives : List Value}
  {variants : List (VariantLabel × DataType)}

theorem memberBases_getElem? {types : List DataType} (position i : Nat) {member : Value} {type : DataType}
    (hmember : alternatives[i]? = some member) (htype : types[i]? = some type) :
    (memberBases position alternatives types)[i]? = some (memberBase (position + i) member type) := by
  induction i generalizing position alternatives types with
  | zero =>
    cases alternatives with
    | nil => cases hmember
    | cons _ _ =>
      cases types with
      | nil => cases htype
      | cons _ _ =>
        cases hmember
        cases htype
        rfl
  | succ i ih =>
    cases alternatives with
    | nil => cases hmember
    | cons _ _ =>
      cases types with
      | nil => cases htype
      | cons _ _ =>
        rw [memberBases, List.getElem?_cons_succ, ih (position + 1) hmember htype, Nat.add_right_comm]
        rfl

/-- The names that the members in front of a position ask for. -/
def basesBefore (alternatives : List Value) (variants : List (VariantLabel × DataType)) (i : Nat) : List String :=
  (memberBases 0 alternatives (variants.map (·.2))).take i

/-- **The tag of a variant without values is its component's name** exactly if this stays as it is and is not asked
for by a member in front. -/
theorem members_tag_iff (h : (members doc resolve next mapping 0 {} alternatives).Yields variants) {i : Nat}
    {member : Value} {variant : VariantLabel × DataType} {ref component : String}
    (hmember : alternatives[i]? = some member) (hvariant : variants[i]? = some variant)
    (href : member.get "$ref" = .text ref) (hcomponent : doc.componentName ref "schemas" = some component)
    (hsilent : memberValues mapping member = []) :
    variant.1.tag = component ↔
      Name.typeName component = component ∧ component ∉ basesBefore alternatives variants i := by
  have hbase : (memberBases 0 alternatives (variants.map (·.2)))[i]? = some (Name.typeName component) := by
    rw [memberBases_getElem? 0 i hmember (by rw [List.getElem?_map, hvariant]; rfl), memberBase_of_reference href,
      Reference.typeName_of_componentName hcomponent]
    rfl
  -- The table has given out the name as often as members in front ask for it.
  have hname : variant.1.name = Name.numbered (Name.typeName component)
      ((basesBefore alternatives variants i).count (Name.typeName component) + 1) := by
    have hnames := congrArg (·[i]?) (members_names h)
    rw [List.getElem?_map, hvariant, Name.claimAll_getElem?, hbase] at hnames
    exact Option.some.inj hnames
  have hvalues : variant.1.HasValues [] := by
    obtain ⟨-, hall⟩ := List.forall₂_iff_get.mp (members_hasValues h)
    obtain ⟨hi, rfl⟩ := List.getElem?_eq_some_iff.mp hmember
    obtain ⟨hi', rfl⟩ := List.getElem?_eq_some_iff.mp hvariant
    exact hsilent ▸ hall i hi hi'
  rw [VariantLabel.tag, hvalues.1, List.head?_nil, Option.getD_none, hname, bare_numbered_typeName,
    Name.numbered_typeName_eq_iff, Nat.add_eq_right, List.count_eq_zero, and_comm]
  exact and_congr_right fun heq => by rw [heq]

end ContractSync.Schema

namespace ContractSync.Model

open ContractSync.Contract (Canonical)
open ContractSync.Document
open ContractSync.Schema (DataType Offers StandFor VariantLabel basesBefore memberValues)
open ContractSync.Emit (exists_readsBack modelDeclaration writtenLabel)

variable {doc : Canonical} {key : Scalar} {schema : Value} {m : Model} {variants : List (VariantLabel × DataType)}

/-! ### Unions -/

/-- A model that is a union stands for the alternatives that its schema offers. -/
theorem standFor_of_yields {discriminator : Option String} (h : (ofSchema doc key schema).Yields m)
    (hshape : m.shape = .union variants discriminator) : StandFor doc schema variants discriminator := by
  obtain ⟨name, rfl, -⟩ := ofSchema_name h
  cases schema with
  | mapping entries => exact Schema.resolve_standFor (resolve_of_yields_union h hshape).2
  | scalar | list | set =>
    unfold ofSchema at h
    obtain ⟨_, -, h⟩ := h.bind
    cases h.pure
    cases hshape

/-- The variants of a declaration are read with the tags of the model. -/
theorem exists_tags (h : m.FitsDeclaration) : ∃ tree item, Rust.parse (modelDeclaration m).toList = .ok tree ∧
    tree.root.children = [item] ∧ item.itemKind? = some m.shape.itemKind ∧
    item.variants.map (Rust.Node.wireName? tree.source) = m.shape.labels.map (some ·.tag) := by
  obtain ⟨item, hitem, hviews⟩ := exists_readsBack h
  obtain ⟨trees, hreads, -⟩ := hitem.isItem.reads
  have hparse := (@Rust.parse_eq_ok_iff _ 0 _).mpr ⟨trees, [item], hreads, rfl⟩
  refine ⟨_, item, hparse, rfl, hitem.kind, ?_⟩
  have hall := congrArg (List.map Rust.FieldView.wireName?) hviews
  rw [List.map_map, List.map_map] at hall
  exact hall.trans (List.map_congr_left fun label _ => Emit.wireName?_writtenLabel label)

/-- **When tags are the names of components.** A union with a discriminator stands for alternatives that its schema
offers, one variant for each, and its declaration is read with the tags of the variants. The tag of a variant that
refers to a component to which no entry of the mapping leads is the name of that component exactly if the name
stays as it is for types and no alternative in front asks for it. -/
theorem tag_eq_component_iff {property : String} (hmodel : (ofSchema doc key schema).Yields m)
    (hshape : m.shape = .union variants (some property)) :
    ((Rust.IsIdentifier m.name ∧ ∀ name ∈ m.shape.variantNames, Rust.IsIdentifier name) →
      ∃ tree item, Rust.parse (modelDeclaration m).toList = .ok tree ∧ tree.root.children = [item] ∧
        item.itemKind? = some .enum_ ∧
        item.variants.map (Rust.Node.wireName? tree.source) = variants.map (some ·.1.tag)) ∧
    ∃ alternatives discriminator, Offers doc schema alternatives discriminator ∧
      (discriminator.get "propertyName").text? = some property ∧ alternatives.length = variants.length ∧
      ∀ (i : Nat) member variant ref component, alternatives[i]? = some member → variants[i]? = some variant →
        member.get "$ref" = .text ref → doc.componentName ref "schemas" = some component →
        memberValues (discriminator.get "mapping").entries member = [] →
        (variant.1.tag = component ↔
          Name.typeName component = component ∧ component ∉ basesBefore alternatives variants i) := by
  refine ⟨fun ⟨hname, hvariants⟩ => ?_, ?_⟩
  · obtain ⟨tree, item, hparse, hroot, hkind, htags⟩ :=
      exists_tags (fitsDeclaration_of_yields hmodel hname hvariants)
    rw [hshape] at hkind htags
    exact ⟨tree, item, hparse, hroot, hkind, htags.trans List.map_map⟩
  · obtain ⟨alternatives, discriminator, resolve, next, hoffers, hproperty, hmembers⟩ :=
      standFor_of_yields hmodel hshape
    exact ⟨alternatives, discriminator, hoffers, hproperty.symm, (Schema.members_hasValues hmembers).length_eq,
      fun _ _ _ _ _ => Schema.members_tag_iff hmembers⟩

/-- Two kinds of pet, one with a name that is converted, and a third that asks for the name of the second. -/
def petUnion : Value :=
  .object [("oneOf", .list [.object [("$ref", .text "#/components/schemas/cat-food")],
      .object [("$ref", .text "#/components/schemas/Dog")], .object [("$ref", .text "#/components/schemas/dog")]]),
    ("discriminator", .object [("propertyName", .text "kind"), ("mapping", .object [("puppy", .text "dog")])])]

/-- A document with these pets. -/
def petContract : Canonical where
  data := [(.text "components", .object [("schemas", .object [("cat-food", .object [("type", .text "object")]),
    ("Dog", .object [("type", .text "object")]), ("Pet", petUnion)])])]
  dialect := .openApi "3.1.0"

/-- What decides how the variants of a union are told apart. -/
def Shape.tagging : Shape → Option (Option String × List VariantLabel)
  | .union variants property => some (property, variants.map (·.1))
  | _ => none

theorem of_tagging_eq_some {shape : Shape} {property : Option String} {labels : List VariantLabel}
    (h : shape.tagging = some (property, labels)) :
    ∃ variants, shape = .union variants property ∧ variants.map (·.1) = labels := by
  cases shape with
  | union variants found =>
    cases h
    exact ⟨variants, rfl, rfl⟩
  | record | literals | «alias» => cases h

/-- The model of the pets: the names of the first and the last variant are those of no component. -/
theorem exists_petModel : ∃ m variants, (ofSchema petContract (.text "Pet") petUnion).collect.1 = .ok m ∧
    m.name = "Pet" ∧ m.shape = .union variants (some "kind") ∧ variants.map (·.1) =
      [{ name := "CatFood" }, { name := "Dog" }, { name := "Dog_2", rename := some "puppy" }] := by
  have hparts : (ofSchema petContract (.text "Pet") petUnion).collect.1.toOption.map
      (fun m => (m.name, m.shape.tagging)) = some ("Pet", some (some "kind",
        [{ name := "CatFood" }, { name := "Dog" }, { name := "Dog_2", rename := some "puppy" }])) := by
    decide +kernel
  obtain ⟨m, hm, hparts⟩ := Option.map_eq_some_iff.mp hparts
  obtain ⟨variants, hshape, hlabels⟩ := of_tagging_eq_some (congrArg Prod.snd hparts)
  exact ⟨m, variants, eq_ok_of_toOption hm, congrArg Prod.fst hparts, hshape, hlabels⟩

/-- The model of the pets can be written. -/
theorem isIdentifier_petModel {variants : List (VariantLabel × DataType)} (hname : m.name = "Pet")
    (hshape : m.shape = .union variants (some "kind")) (hlabels : variants.map (·.1) =
      [{ name := "CatFood" }, { name := "Dog" }, { name := "Dog_2", rename := some "puppy" }]) :
    Rust.IsIdentifier m.name ∧ ∀ name ∈ m.shape.variantNames, Rust.IsIdentifier name := by
  rw [hname, Shape.variantNames_eq, hshape]
  show _ ∧ ∀ name ∈ (variants.map (·.1)).map (·.name), _
  rw [hlabels]
  decide

/-- The first tag is not the name of its component, the second one is. -/
theorem tag_eq_component_iff_petUnion : ∃ m first second third,
    (ofSchema petContract (.text "Pet") petUnion).Yields m ∧
      m.shape = .union [first, second, third] (some "kind") ∧ first.1.tag ≠ "cat-food" ∧ second.1.tag = "Dog" := by
  obtain ⟨m, variants, hmodel, -, hshape, hlabels⟩ := exists_petModel
  obtain ⟨first, _, rfl, -, hlabels⟩ := List.map_eq_cons_iff.mp hlabels
  obtain ⟨second, _, rfl, -, hlabels⟩ := List.map_eq_cons_iff.mp hlabels
  obtain ⟨third, rfl, -⟩ := List.map_eq_singleton_iff.mp hlabels
  have hyields := Resolving.yields_of_collect hmodel
  obtain ⟨-, alternatives, discriminator, hoffers, -, -, htags⟩ := tag_eq_component_iff hyields hshape
  refine ⟨m, first, second, third, hyields, hshape, ?_⟩
  cases hoffers with
  | own h =>
    cases h
    have hfirst := htags 0 _ first _ "cat-food" rfl rfl rfl (by decide +kernel) (by decide +kernel)
    have hsecond := htags 1 _ second _ "Dog" rfl rfl rfl (by decide +kernel) (by decide +kernel)
    refine ⟨fun htag => absurd (hfirst.mp htag).1 (by decide +kernel), hsecond.mpr ⟨by decide +kernel, ?_⟩⟩
    show "Dog" ∉ [Schema.memberBase 0 _ first.2]
    have href : (Value.object [("$ref", .text "#/components/schemas/cat-food")]).get "$ref" =
        .text "#/components/schemas/cat-food" := rfl
    rw [Schema.memberBase_of_reference href]
    decide +kernel
  | onlyMember h => cases h
  | target h => cases h

/-- The declaration is read with a tag that is not the name of the component, to which no value leads. -/
theorem tag_lost : ∃ m tree item, (ofSchema petContract (.text "Pet") petUnion).collect.1 = .ok m ∧
    Rust.parse (modelDeclaration m).toList = .ok tree ∧ tree.root.children = [item] ∧
    item.variants.map (Rust.Node.wireName? tree.source) = [some "CatFood", some "Dog", some "puppy"] ∧
    petContract.componentName "#/components/schemas/cat-food" "schemas" = some "cat-food" ∧
    memberValues ((petUnion.get "discriminator").get "mapping").entries
      (.object [("$ref", .text "#/components/schemas/cat-food")]) = [] := by
  obtain ⟨m, variants, hmodel, hname, hshape, hlabels⟩ := exists_petModel
  obtain ⟨hidentifier, hvariants⟩ := isIdentifier_petModel hname hshape hlabels
  obtain ⟨tree, item, hparse, hroot, -, htags⟩ :=
    exists_tags (fitsDeclaration_of_yields (Resolving.yields_of_collect hmodel) hidentifier hvariants)
  have hwritten : m.shape.labels = variants.map (·.1) := by rw [hshape]; rfl
  rw [hwritten, hlabels] at htags
  exact ⟨m, tree, item, hmodel, hparse, hroot, htags, by decide +kernel, by decide +kernel⟩

end ContractSync.Model
