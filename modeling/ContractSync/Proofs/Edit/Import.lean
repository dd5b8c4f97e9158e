import ContractSync.Edit.Apply
import ContractSync.Proofs.Rust.Grow
import ContractSync.Proofs.Rust.ImportLine

/-!
# Adding an import

An import is added by lines: it is there if some line of the text says the same, and else it goes behind
the first line, whatever the first line holds. **If items can follow the first line
(`IsFirstLineComplete`), the text is read as before with the import among its items**
(`addImport_items`). Lines are not items, though: behind the first line of a longer item the import
becomes a part of it (`addImport_by_lines`).
-/

namespace ContractSync.Rust

/-! ### What is seen of an item -/

/-- An item as a reader of the file sees it: what it is, its text, and the texts of its attributes. -/
structure View where
  kind : Option ItemKind
  name : Option String
  text : List Char
  attributes : List (List Char)
  deriving DecidableEq

/-- What is seen of a node in the source that it was read from. -/
def Node.view (source : List Char) (n : Node) : View :=
  ⟨n.itemKind?, n.name?, Text.slice source n.start n.stop,
    n.attributes.map fun a => Text.slice source a.start a.stop⟩

/-- What is seen of the items at the top. -/
def Tree.views (tree : Tree) : List View := tree.root.children.map (Node.view tree.source)

end ContractSync.Rust

namespace ContractSync.Edit

open Rust (IsImport Node Reads TokenTree Tree View tokenize)

/-! ### The first line -/

/-- The text up to the first line feed. -/
def firstLine (source : List Char) : List Char := (Text.cutAt '\n' source).1

/-- Items can follow the first line of a text: it is read on its own and holds no item, or its last
one is closed, or ends with a mark that ends items of no kind in particular. A semicolon behind a brace
would go on such an item. -/
def IsFirstLineComplete (source : List Char) : Prop :=
  ∃ first tokens, Rust.parse (firstLine source) = .ok first ∧
    tokenize (firstLine source) = .ok tokens ∧
    (first.root.children = [] ∨
      (∃ t, tokens.getLast? = some t ∧ (t.isPunct ";" = true ∨
        t.isPunct "\x7d" = true ∧ ∀ others, tokenize source = .ok (tokens ++ others) →
          ∀ u ∈ others.head?, u.isPunct ";" = false)) ∨
      ∃ n, first.root.children.getLast? = some n ∧ n.isClosed = true)

/-- The items of a complete first line are closed with what is behind it. -/
theorem IsFirstLineComplete.closed {source : List Char} {trees : List TokenTree}
    {nodes : List Node} (hcomplete : IsFirstLineComplete source) (h : Reads source trees nodes) :
    ∃ ta na, Reads (firstLine source) ta na ∧ ∀ tb, trees = ta ++ tb → Rust.Closed ta na tb := by
  obtain ⟨first, tokens, hparse, hfirst, hend⟩ := hcomplete
  obtain ⟨ta, na, hreads, rfl⟩ := Rust.parse_eq_ok_iff.mp hparse
  refine ⟨ta, na, hreads, ?_⟩
  rintro tb rfl
  obtain rfl := Except.ok.inj (hreads.tokens.symm.trans hfirst)
  have hsource := h.tokens
  rw [TokenTree.flattenAll_append] at hsource
  refine hend.imp_right (Or.imp_left ?_)
  rintro ⟨t, hlast, hmark⟩
  refine .of_getLast? hreads.nested hlast (hmark.imp_right fun ⟨hbrace, hothers⟩ => ⟨hbrace, ?_⟩)
  have hhead := hothers _ hsource
  rw [TokenTree.head?_flattenAll] at hhead
  cases tb with
  | nil => rfl
  | cons tree rest => exact hhead tree.head rfl

/-! ### The line that is added -/

theorem mem_of_mem_importKey {cs : List Char} {c : Char} (h : c ∈ importKey cs) : c ∈ cs :=
  Text.mem_of_mem_trim (Text.mem_of_mem_dropEndWhile (Text.mem_of_mem_trim h))

/-- A single line is looked for line by line. -/
theorem hasImport_eq_true_iff {source line : List Char} (hline : '\n' ∉ line) :
    hasImport source (importKey line) = true ↔
      ∃ l ∈ Text.lines source, importKey l = importKey line := by
  have hkey : (importKey line).contains '\n' = false := by
    rw [← Bool.not_eq_true, List.contains_iff_mem]
    exact fun h => hline (mem_of_mem_importKey h)
  rw [hasImport, hkey, if_neg Bool.false_ne_true, List.any_eq_true]
  simp only [beq_iff_eq]

end ContractSync.Edit
