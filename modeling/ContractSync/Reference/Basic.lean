import ContractSync.Reference.Pointer
import ContractSync.Reference.Uri

/-!
# References

A reference names a document and, behind `#`, a place in it. Nothing is ever fetched: a reference to
another document counts as local only if that document is this one by its own name for itself.
-/

namespace ContractSync

/-- Where the document of a reference is to be found. -/
inductive ReferenceKind where
  | inDocument
  | relative
  | remote
  deriving DecidableEq, Repr

/-- A reference in its parts. -/
structure Reference where
  exact : String
  kind : ReferenceKind
  document : String
  fragment : Option String
  deriving DecidableEq, Repr

namespace Reference

/-- The text starts with a scheme, as far as its first letter tells. -/
def hasScheme (cs : List Char) : Bool :=
  match Text.cutAt ':' cs with
  | (c :: _, some _) => c.isAlpha
  | _ => false

/-- Divides a reference into its parts. -/
def ofString (exact : String) : Reference :=
  let (document, fragment) := Text.cutAt '#' exact.toList
  let kind :=
    if document.isEmpty && fragment.isSome then .inDocument
    else if hasScheme document then .remote
    else .relative
  ⟨exact, kind, String.ofList document, fragment.map String.ofList⟩

/-- `word` does not occur in the text. -/
def lacks (word : String) (s : String) : Bool := !Text.occursIn word.toList s.toList

/-- A document name in a reference means the document that calls itself `self`: the names are equal,
or equal as URIs, or equal as path names; a `self` that is a path is compared with a URI's path. -/
def namesSelf (document self : String) : Bool :=
  if document == self then true
  else
    match Uri.key? document.toList, Uri.key? self.toList with
    | some a, some b => a == b
    | some a, none =>
      if self.toList.head? == some '/' then a.path == self.toList else byPath
    | none, _ => byPath
where
  /-- The names are equal as path names, and neither is a URI. -/
  byPath : Bool :=
    lacks "://" self && lacks "://" document
      && PathName.ofString document == PathName.ofString self

/-- The reference as a pointer into this document, if it leads there. -/
def toLocal (exact : String) (self : Option String) : Option String :=
  let reference := ofString exact
  if reference.kind = .inDocument then some exact
  else do
    let fragment ← reference.fragment
    let self ← self
    if namesSelf reference.document self then some ("#" ++ fragment) else none

/-- The name behind `#/components/<family>/`, if that is where the reference leads. -/
def componentName (exact : String) (self : Option String) (family : String) : Option String := do
  let pointer ← toLocal exact self
  match Text.splitAt '/' ((pointer.toList.dropWhile (· == '#')).dropWhile (· == '/')) with
  | [components, found, name] =>
    if components == "components".toList && found == family.toList then
      let name := Pointer.decodeSegment name
      if name.isEmpty then none else some name
    else none
  | _ => none

/-- The name that the document part of a reference suggests: the stem of its file. -/
def documentStem (document : String) : Except Fault (Option String) :=
  if document.isEmpty then .ok none
  else
    match Uri.split document.toList with
    | none => .error .unreadable
    | some uri =>
      let path := if uri.path.isEmpty then document else String.ofList uri.path
      let stem := (PathName.ofString path).stem
      .ok (if stem.isEmpty then none else some stem)

/-- The type name that a reference suggests: its last pointer segment, else the stem of its file. -/
def typeName (exact : String) : Except Fault String :=
  let reference := ofString exact
  let last := (reference.fragment.map fun f => Text.afterLast '/' f.toList).getD []
  if !last.isEmpty then .ok (Pointer.decodeSegment last)
  else (documentStem reference.document).map (·.getD "Unknown")

end Reference

end ContractSync
