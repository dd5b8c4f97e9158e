import ContractSync.Proofs.Rust.FieldEntry
import ContractSync.Proofs.Rust.Grow
import ContractSync.Proofs.Rust.Insert
import ContractSync.Proofs.Text.Parts

/-!
# The text of a field

Texts that stand for a name, a type and attributes are put together to whole lines. **Lines of attributes,
then one of the visibility, the name and the type with a comma behind it, are read as a field that shows
these texts, whatever follows** (`IsFieldText`, `IsFieldText.named`, `IsFieldText.attribute`).
-/

namespace ContractSync.Rust

open Lexer
open TokenTree (flattenAll flattenAll_map_move isNestedAll isNestedAll_map_move)

/-! ### What is seen of a field -/

/-- A field as a reader of the file sees it. -/
structure FieldView where
  name : Option String
  type : Option (List Char)
  attributes : List (List Char)
  deriving DecidableEq

/-- What is seen of a field in the source that it was read from. -/
def Node.fieldView (source : List Char) (f : Node) : FieldView :=
  ⟨f.name?, f.type?.map fun s => Text.slice source s.start s.stop,
    f.attributes.map fun a => Text.slice source a.start a.stop⟩

theorem Node.fieldView_attribute (source : List Char) (start : Nat) {shape : Shape}
    {place itemStart stop : Nat} {inner : List TokenTree} {closer : Token} {attributes : List Node} :
    (mk shape place itemStart stop (Attribute.node place false inner closer :: attributes)).fieldView
        source =
      let view := (mk shape start itemStart stop attributes).fieldView source
      { view with attributes := Text.slice source place closer.stop :: view.attributes } :=
  rfl

/-- A field looks the same behind another text. -/
theorem Node.fieldView_behind (front source : List Char) (f : Node) :
    (f.move (· + front.length)).fieldView (front ++ source) = f.fieldView source := by
  rw [fieldView, fieldView, name?_move, type?_move, attributes_move, List.map_map, Option.map_map,
    FieldView.mk.injEq]
  refine ⟨rfl, congrArg (Option.map · f.type?) (funext fun s => ?_),
    List.map_congr_left fun a _ => ?_⟩
  · exact Text.slice_append_right front source s.start s.stop
  · rw [Function.comp, start_move, stop_move, Text.slice_append_right]

/-- A field looks the same in every text that is the same as far as the field goes. -/
theorem Node.fieldView_congr {source other : List Char} {x : Nat} {f : Node}
    (hfixed : f.carry ⟨id, (min · x)⟩ = f) (htake : source.take x = other.take x) :
    f.fieldView source = f.fieldView other := by
  have hslice : ∀ {start stop : Nat}, min stop x = stop →
      Text.slice source start stop = Text.slice other start stop := by
    intro start stop hmin
    rw [Text.slice, Text.slice, ← hmin, ← List.take_take, ← List.take_take, htake]
  have htype : ∀ s ∈ f.type?, min s.stop x = s.stop := by
    intro s hs
    have hcarry : (f.carry ⟨id, (min · x)⟩).type? = f.type?.map (Span.carry ⟨id, (min · x)⟩) := by
      rw [type?, type?, shape_carry]
      cases f.shape <;> rfl
    rw [hfixed, hs, Option.map_some, Option.some.injEq] at hcarry
    exact (congrArg Span.stop hcarry).symm
  have hattribute : ∀ a ∈ f.attributes, min a.stop x = a.stop := by
    intro a ha
    have hchildren := congrArg children hfixed
    rw [children_carry] at hchildren
    have ha := List.map_inj_left.mp (hchildren.trans (List.map_id _).symm) a (List.mem_filter.mp ha).1
    have hstop := congrArg Node.stop ha
    rwa [stop_carry] at hstop
  rw [fieldView, fieldView, FieldView.mk.injEq]
  refine ⟨rfl, ?_, List.map_congr_left fun a ha => hslice (hattribute a ha)⟩
  cases hs : f.type? with
  | none => rfl
  | some s => exact congrArg some (hslice (htype s hs))

/-- So do the fields of a record, which go as far as its tokens. -/
theorem Entry.fieldView_congr {before stop x : Nat} {trees : List TokenTree} {fields : List Node}
    {source other : List Char} (h : nodes recordField (divide before stop 0 [] trees) = .ok fields)
    (hstop : ∀ t ∈ flattenAll trees, t.stop ≤ x) (htake : source.take x = other.take x) :
    fields.map (Node.fieldView source) = fields.map (Node.fieldView other) := by
  have hfixed := fields_carry_eq_self (e := ⟨id, (min · x)⟩) h fun t ht =>
    Token.carry_eq_self rfl (Nat.min_eq_left (hstop t ht))
  exact List.map_congr_left fun f hf =>
    Node.fieldView_congr (List.map_inj_left.mp (hfixed.trans (List.map_id _).symm) f hf) htake

/-! ### Texts that stand for trees -/

/-- The text, from its first character to its last, is what these trees stand for. -/
structure Spells (text : List Char) (trees : List TokenTree) : Prop where
  tokens : tokenize text = .ok (flattenAll trees)
  nested : isNestedAll trees = true
  covers : Covers trees ⟨0, text.length⟩

namespace Lexer

/-- A colon goes on no token but another colon. -/
theorem Quieter.of_colon {c : Char} (h : c ≠ ':') (u : List Char) : Quieter c [] (':' :: u) := by
  have hident : isIdentChar ':' = false := by decide +kernel
  have hraw : rawHashes (':' :: u) = none := by
    rw [rawHashes_cons, if_neg (by decide), if_neg (by decide)]
  refine ⟨fun h' => ?_, nofun, rfl, nofun, fun h' => ?_, fun _ => hraw, nofun, nofun⟩
  · rw [startsWith, hident] at h'
    cases h'
  · simp [startsWith, isPair, h] at h'

theorem step_comma (rest : List Char) : step ',' rest = .ok ⟨some .punct, 0⟩ := by
  have hpair : startsWith (isPair ',') rest = false := by
    cases rest with
    | nil => rfl
    | cons c rest => simp [startsWith, isPair]
  have hblank : Text.isBlank ',' = false := by decide
  have hident : isIdentStart ',' = false := by decide +kernel
  have hdigit : Text.isDigit ',' = false := by decide
  simp [step, tokenStep, rawMarker, hblank, hident, hdigit, hpair]

/-- A name in front of a colon. -/
theorem run_name {name : List Char} {t : Token} (h : tokenize name = .ok [t]) (hkind : t.kind = .ident)
    (hstart : t.start = 0) (hstop : t.stop = name.length) (u : List Char) :
    Run 0 (name ++ ':' :: u) [t] name.length (':' :: u) := by
  have hrun : Run 0 name ([] ++ t :: []) (0 + name.length) [] := run_of_lexFrom h
  obtain ⟨c, w, r, hbefore, hstep, htext, hend, -⟩ := hrun.split
  obtain ⟨a, hname, ha⟩ := hbefore.suffix
  obtain rfl : a = [] := List.length_eq_zero_iff.mp (by omega)
  obtain rfl : r = [] := by
    have := congrArg List.length hname
    simp at this
    exact List.length_eq_zero_iff.mp (by omega)
  rw [List.append_nil, List.nil_append] at hname
  rw [hname] at hstop ⊢
  have hc : c ≠ ':' := by
    rintro rfl
    rw [step_colon, hkind] at hstep
    simp at hstep
  have hstep' := step_congr hstep (.of_colon hc u) (fun _ _ h => by cases h) fun h => by cases h
  have hemit := Run.emit (p := 0) hstep' (.refl _ _)
  have htoken : t = ⟨t.kind, String.ofList (c :: w), 0, 0 + w.length + 1⟩ := by
    rw [← htext, ← hstart, ← hend]
  rw [htoken, List.length_cons, ← Nat.zero_add (w.length + 1)]
  exact hemit

end Lexer

namespace Spells

variable {text : List Char} {trees : List TokenTree}

/-- The text is lexed alike in front of a calm text that starts no comment with it. -/
theorem run (h : Spells text trees) {u : List Char} (hcalm : Lexer.Calm u)
    (hslash : Lexer.startsWith (· == '/') u = false) :
    Lexer.Run 0 (text ++ u) (flattenAll trees) text.length u := by
  have hrun := (Lexer.run_of_lexFrom h.tokens).congr_before_calm hcalm (fun _ => hslash) fun _ => by
    have hlast := h.covers.2
    rw [← TokenTree.stop_getLast?_flattenAll] at hlast
    obtain ⟨t, ht, hstop⟩ := Option.map_eq_some_iff.mp hlast
    exact ⟨t, ht, by rw [hstop, Nat.zero_add]⟩
  rwa [Nat.zero_add] at hrun

/-- The text is found where its trees are. -/
theorem slice_eq (h : Spells text trees) {s : Span} (hs : Covers trees s) (behind : List Char) :
    Text.slice (text ++ behind) s.start s.stop = text := by
  obtain ⟨hstart, hstop⟩ := h.covers
  rw [hs.1, Option.some.injEq] at hstart
  rw [hs.2, Option.some.injEq] at hstop
  rw [hstart, hstop, Text.slice_append_left (Nat.le_refl _), Text.slice, List.take_length,
    List.drop_zero]

end Spells

/-- A name, a colon and a type with a comma behind it, from a place in the text on. -/
theorem run_named {name type : List Char} {t : Token} {types : List TokenTree} {p d : Nat}
    (hname : Spells name [.leaf t]) (hkind : t.kind = .ident) (htype : Spells type types)
    (hd : d = p + name.length + 2) (rest : List Char) :
    Run p (name ++ ':' :: ' ' :: (type ++ ',' :: '\n' :: rest))
      (t.shift p :: ⟨.punct, ":", p + name.length, p + name.length + 1⟩ ::
        (flattenAll (types.map (TokenTree.move (· + d))) ++
          [⟨.punct, ",", d + type.length, d + type.length + 1⟩]))
      (d + type.length + 2) rest := by
  subst hd
  have hup := (run_name hname.tokens hkind (Option.some.inj hname.covers.1)
    (Option.some.inj hname.covers.2) (' ' :: (type ++ ',' :: '\n' :: rest))).shift p
  rw [Nat.zero_add, Nat.add_comm name.length] at hup
  have hcolon : Run (p + name.length) (':' :: ' ' :: (type ++ ',' :: '\n' :: rest))
      [⟨.punct, ":", p + name.length, p + name.length + 1⟩] (p + name.length + 1)
      (' ' :: (type ++ ',' :: '\n' :: rest)) :=
    .emit (w := []) (step_colon _) (.refl _ _)
  have hblank : Run (p + name.length + 1) (' ' :: (type ++ ',' :: '\n' :: rest)) []
      (p + name.length + 2) (type ++ ',' :: '\n' :: rest) :=
    .skip (w := []) (step_blank (by decide) _) (.refl _ _)
  have htype' := (htype.run (u := ',' :: '\n' :: rest) (.of_isCalm (by decide +kernel)) rfl).shift
    (p + name.length + 2)
  rw [Nat.zero_add, Nat.add_comm type.length] at htype'
  have hcomma : Run (p + name.length + 2 + type.length) (',' :: '\n' :: rest)
      [⟨.punct, ",", p + name.length + 2 + type.length, p + name.length + 2 + type.length + 1⟩]
      (p + name.length + 2 + type.length + 2) rest :=
    .emit (w := []) (step_comma _) (.skip (w := []) (step_newline rest) (.refl _ _))
  rw [flattenAll_map_move]
  exact hup.trans (hcolon.trans (hblank.trans (htype'.trans hcomma)))

/-- The visibility in front of a name. -/
theorem run_visibility {visibility : List Char} {name : String}
    (h : visibility = "pub ".toList ∨ visibility = [] ∧ name ≠ "pub") :
    ∃ trees, (∀ rest, Run 0 (visibility ++ rest) (flattenAll trees) visibility.length rest) ∧
      isNestedAll trees = true ∧ (∀ tree ∈ trees, Entry.IsNeutral tree) ∧
      ∀ {t : Token} (more : List TokenTree), t.text = name → t.kind = .ident →
        Attribute.lead (trees ++ .leaf t :: more) = ⟨[], [], trees ++ .leaf t :: more⟩ ∧
        Entry.dropVisibility (trees ++ .leaf t :: more) = .leaf t :: more := by
  rcases h with rfl | ⟨rfl, hne⟩
  · refine ⟨[.leaf ⟨.ident, "pub", 0, 3⟩], fun rest => ?_, rfl, ?_, fun more _ _ => ⟨?_, rfl⟩⟩
    · have hpub : Spells "pub".toList [.leaf ⟨.ident, "pub", 0, 3⟩] :=
        ⟨eq_ok_of_toOption (by decide +kernel), rfl, rfl, rfl⟩
      have hblank : Run 3 (' ' :: rest) [] 4 rest :=
        .skip (w := []) (step_blank (by decide) _) (.refl _ _)
      exact (hpub.run (u := ' ' :: rest) (.of_isBlank (by decide)) rfl).trans hblank
    · exact List.forall_mem_singleton.mpr (Entry.isNeutral_of_ident rfl)
    · exact Attribute.lead_of_not_hash rfl _
  · refine ⟨[], fun rest => .refl _ _, rfl, List.forall_mem_nil _,
      fun {t} more htext hkind => ⟨?_, ?_⟩⟩
    · refine Attribute.lead_of_not_hash ?_ _
      rw [Token.isPunct, hkind]
      rfl
    · refine Entry.dropVisibility_of_not_pub ?_ _
      rw [Token.isWord, htext, beq_false_of_ne hne, Bool.and_false]

/-! ### The text of a field -/

/-- The text is that of a field with its comma, and read as this field whatever follows. -/
structure IsFieldText (text : List Char) (trees : List TokenTree) (comma : Token) (field : Node) :
    Prop where
  run : ∀ rest, Run 0 (text ++ rest) (flattenAll trees ++ [comma]) text.length rest
  nested : isNestedAll trees = true
  mark : comma.isPunct "," = true
  depth : Entry.depthBehind 0 trees = some 0
  field : Entry.recordField ⟨0, trees, comma.start, true⟩ = .ok (some field)

namespace IsFieldText

variable {text : List Char} {trees : List TokenTree} {comma : Token} {field : Node}

theorem ne_nil (h : IsFieldText text trees comma field) : trees ≠ [] := by
  rintro rfl
  rcases Entry.recordField_eq_ok.mp h.field with ⟨hf, -⟩ | ⟨_, _, _, ⟨hrest, -⟩, -⟩
  · cases hf
  · cases hrest

/-- The field looks the same wherever its text stands. -/
theorem fieldView_around (h : IsFieldText text trees comma field) (front behind : List Char) :
    (field.move (· + front.length)).fieldView (front ++ (text ++ behind)) = field.fieldView text := by
  have hfields : Entry.nodes Entry.recordField (Entry.divide 0 comma.start 0 [] trees) =
      .ok [field] := by
    rw [Entry.divide_of_depth h.depth h.ne_nil]
    exact Entry.nodes_cons_eq_ok.mpr
      ⟨_, _, Entry.recordField_eq_some h.field 0 comma.start false, rfl, rfl⟩
  have hstop : ∀ t ∈ flattenAll trees, t.stop ≤ text.length := fun t ht =>
    ((h.run []).ordered.2.1 t (List.mem_append_left _ ht)).2.2
  have htake : (text ++ behind).take text.length = text.take text.length := by
    rw [List.take_left, List.take_length]
  rw [Node.fieldView_behind]
  exact List.singleton_inj.mp (Entry.fieldView_congr hfields hstop htake)

theorem recordField_move (h : IsFieldText text trees comma field) (d : Nat) :
    Entry.recordField ⟨0, trees.map (TokenTree.move (· + d)), comma.start + d, true⟩ =
      .ok (some (field.move (· + d))) := by
  have hcarry := Entry.recordField_carry (e := .same (· + d)) h.field
  rw [Option.map_some, Node.carry_same, Entry.carry, TokenTree.map_carry_same] at hcarry
  exact Entry.recordField_congr hcarry 0 _

theorem depth_move (h : IsFieldText text trees comma field) (d : Nat) :
    Entry.depthBehind 0 (trees.map (TokenTree.move (· + d))) = some 0 := by
  rw [← TokenTree.map_carry_same, Entry.depthBehind_carry, h.depth]

theorem run_move (h : IsFieldText text trees comma field) (d : Nat) (rest : List Char) :
    Run d (text ++ rest) (flattenAll (trees.map (TokenTree.move (· + d))) ++ [comma.shift d])
      (d + text.length) rest := by
  have hrun := (h.run rest).shift d
  rw [Nat.zero_add, Nat.add_comm text.length, List.map_append, List.map_singleton] at hrun
  rwa [flattenAll_map_move]

/-- Blanks in front. -/
theorem blanks (h : IsFieldText text trees comma field) {x : List Char}
    (hx : ∀ c ∈ x, Text.isBlank c = true) :
    IsFieldText (x ++ text) (trees.map (TokenTree.move (· + x.length))) (comma.shift x.length)
      (field.move (· + x.length)) where
  run rest := by
    have hrun := (run_blanks hx 0 (text ++ rest)).trans
      ((Nat.zero_add x.length).symm ▸ h.run_move x.length rest)
    rwa [List.nil_append, Nat.zero_add, ← List.append_assoc, ← List.length_append] at hrun
  nested := by rw [isNestedAll_map_move, h.nested]
  mark := h.mark
  depth := h.depth_move x.length
  field := h.recordField_move x.length

/-- An attribute on a line of its own in front. -/
theorem attributeLine (h : IsFieldText text trees comma field) {a : List Char}
    {hash opener closer : Token} {inner : List TokenTree}
    (ha : Spells a [.leaf hash, .group opener inner closer]) (hhash : hash.isPunct "#" = true)
    (hopener : opener.isPunct "[" = true) :
    ∃ trees' comma' field', IsFieldText (a ++ '\n' :: text) trees' comma' field' ∧
      field'.fieldView (a ++ '\n' :: text) =
        { field.fieldView text with attributes := a :: (field.fieldView text).attributes } := by
  have hmoved := h.recordField_move (a.length + 1)
  have hview := Node.fieldView_behind (a ++ ['\n']) text field
  have hneutral : ∀ tree ∈ [TokenTree.leaf hash, .group opener inner closer],
      Entry.IsNeutral tree := by
    simp only [List.forall_mem_cons]
    exact ⟨Entry.isNeutral_of_mark hhash (by decide), Entry.isNeutral_of_mark hopener (by decide),
      List.forall_mem_nil _⟩
  rw [List.length_append, List.length_singleton, List.append_assoc] at hview
  obtain ⟨shape, start, itemStart, last, attributes⟩ := field
  rw [Node.move_mk] at hmoved hview
  refine ⟨[.leaf hash, .group opener inner closer] ++
    trees.map (TokenTree.move (· + (a.length + 1))), comma.shift (a.length + 1), _,
      ⟨fun rest => ?_, ?_, h.mark, ?_, Entry.recordField_attribute hmoved hhash hopener⟩, ?_⟩
  · have hrun := (run_line ha.tokens (text ++ rest)).trans (h.run_move (a.length + 1) rest)
    have hlength : a.length + 1 + text.length = (a ++ '\n' :: text).length := by
      simp
      omega
    rw [← List.append_assoc, ← TokenTree.flattenAll_append, hlength] at hrun
    rwa [List.append_assoc]
  · rw [TokenTree.isNestedAll_append, ha.nested, isNestedAll_map_move, h.nested]
    rfl
  · rw [Entry.depthBehind_append (Entry.depthBehind_eq_self hneutral 0), h.depth_move]
  · have hattribute : Text.slice (a ++ '\n' :: text) hash.start closer.stop = a :=
      ha.slice_eq (s := ⟨hash.start, closer.stop⟩) ⟨rfl, rfl⟩ ('\n' :: text)
    rw [Node.fieldView_attribute _ (start + (a.length + 1)), hattribute]
    rw [List.singleton_append] at hview
    rw [hview]

/-- The line of a field, from its visibility on. -/
theorem named {visibility name type : List Char} {t : Token} {types : List TokenTree}
    (hname : Spells name [.leaf t]) (hkind : t.kind = .ident) (htype : Spells type types)
    (hdepth : Entry.depthBehind 0 types = some 0)
    (hvisibility : visibility = "pub ".toList ∨ visibility = [] ∧ t.text ≠ "pub") :
    ∃ trees comma field,
      IsFieldText (visibility ++ (name ++ ':' :: ' ' :: (type ++ [',', '\n']))) trees comma field ∧
        field.type? = some ⟨visibility.length + name.length + 2,
          visibility.length + name.length + 2 + type.length⟩ ∧
        field.fieldView (visibility ++ (name ++ ':' :: ' ' :: (type ++ [',', '\n']))) =
          ⟨some t.text, some type, []⟩ := by
  obtain ⟨vis, hvis, hnested, hneutral, hread⟩ := run_visibility hvisibility
  obtain ⟨d, hd⟩ : ∃ d, d = visibility.length + name.length + 2 := ⟨_, rfl⟩
  have hcovers : Covers (types.map (TokenTree.move (· + d))) ⟨0 + d, type.length + d⟩ := by
    rw [← TokenTree.map_carry_same]
    exact htype.covers.carry
  rw [Nat.zero_add, Nat.add_comm type.length] at hcovers
  obtain ⟨hlead, hdrop⟩ := hread (t := t.shift visibility.length) (.leaf ⟨.punct, ":",
    visibility.length + name.length, visibility.length + name.length + 1⟩ ::
      types.map (TokenTree.move (· + d))) rfl hkind
  obtain ⟨start, hfield⟩ := @Entry.recordField_named 0 (d + type.length) true _ _ _ _ _ hlead hdrop hkind
    rfl hcovers
  refine ⟨_, ⟨.punct, ",", d + type.length, d + type.length + 1⟩, _,
    ⟨fun rest => ?_, ?_, rfl, ?_, hfield⟩, hd ▸ rfl, ?_⟩
  · have hrun := (hvis _).trans (run_named hname hkind htype hd rest)
    rw [TokenTree.flattenAll_append]
    have hlength : (visibility ++ (name ++ ':' :: ' ' :: (type ++ [',', '\n']))).length =
        d + type.length + 2 := by
      rw [hd]
      simp
      omega
    simpa [flattenAll, TokenTree.flatten, hlength] using hrun
  · have hleaf := hname.nested
    rw [isNestedAll, Bool.and_eq_true] at hleaf
    have hleaf : TokenTree.isNested (.leaf (t.shift visibility.length)) = true := hleaf.1
    rw [TokenTree.isNestedAll_append, hnested, isNestedAll, hleaf, isNestedAll, isNestedAll_map_move,
      htype.nested]
    rfl
  · have hname' : Entry.IsNeutral (.leaf (t.shift visibility.length)) :=
      Entry.isNeutral_of_ident hkind
    rw [Entry.depthBehind_append (Entry.depthBehind_eq_self hneutral 0), ← List.singleton_append,
      Entry.depthBehind_append
        (Entry.depthBehind_eq_self (List.forall_mem_singleton.mpr hname') 0),
      ← TokenTree.map_carry_same]
    exact (Entry.depthBehind_carry 0 types).trans hdepth
  · have hslice := Text.slice_append_right (visibility ++ (name ++ [':', ' ']))
      (type ++ [',', '\n']) 0 type.length
    have hlength : (visibility ++ (name ++ [':', ' '])).length = d := by
      rw [hd]
      simp
      omega
    have htext : visibility ++ (name ++ [':', ' ']) ++ (type ++ [',', '\n']) =
        visibility ++ (name ++ ':' :: ' ' :: (type ++ [',', '\n'])) := by simp
    rw [Text.slice_append_left (Nat.le_refl _), hlength, htext, Nat.zero_add, Nat.add_comm type.length]
      at hslice
    have hwhole : Text.slice type 0 type.length = type := by
      rw [Text.slice, List.take_length, List.drop_zero]
    rw [hwhole] at hslice
    rw [Node.fieldView, FieldView.mk.injEq]
    exact ⟨rfl, congrArg some hslice, rfl⟩

end IsFieldText

end ContractSync.Rust
