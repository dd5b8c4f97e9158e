import ContractSync.PathName
import ContractSync.Text.CaseMap

/-!
# Splitting a URI

A URI is split into scheme, authority and path; query and fragment are cut off. `Uri.split` refuses
an authority with unbalanced or wrongly filled brackets, or with characters that stand for a
delimiter. `Uri.key?` gives the parts by which two absolute URIs are compared.
-/

namespace ContractSync.Reference

/-- The parts of a URI that matter here. -/
structure Uri where
  scheme : List Char
  authority : List Char
  path : List Char
  deriving DecidableEq, Repr

namespace Uri

/-- The characters outside ASCII whose compatibility form holds one of `/?#@:`. -/
def delimiterLookalikes : List (Nat × Nat) :=
  [(8263, 8265), (8448, 8449), (8453, 8454), (10868, 10868), (65043, 65043), (65046, 65046),
   (65109, 65110), (65119, 65119), (65131, 65131), (65283, 65283), (65295, 65295),
   (65306, 65306), (65311, 65312)]

/-- A character that may stand in a scheme. -/
def isSchemeChar (c : Char) : Bool := c.isAlphanum || c == '+' || c == '-' || c == '.'

/-- The text without the controls and spaces at its start and without tabulators and line ends. -/
def cleaned (cs : List Char) : List Char :=
  (cs.dropWhile (·.toNat ≤ 32)).filter fun c => c != '\t' && c != '\r' && c != '\n'

/-- The scheme, in small letters, and what follows its colon. -/
def splitScheme (cs : List Char) : List Char × List Char :=
  match Text.cutAt ':' cs with
  | (c :: scheme, some rest) =>
    if c.isAlpha && scheme.all isSchemeChar then ((c :: scheme).map Char.toLower, rest)
    else ([], cs)
  | _ => ([], cs)

/-! ### Bracketed hosts -/

/-- A number from 0 to 255 without needless zeros. -/
def isOctet (cs : List Char) : Bool :=
  !cs.isEmpty && cs.all Char.isDigit && cs.length ≤ 3 && (cs == ['0'] || cs.head? != some '0')
    && cs.foldl (fun n c => 10 * n + (c.toNat - '0'.toNat)) 0 ≤ 255

/-- Four numbers with dots between them. -/
def isDottedQuad (cs : List Char) : Bool :=
  let parts := Text.splitAt '.' cs
  parts.length == 4 && parts.all isOctet

/-- One to four hexadecimal digits. -/
def isHextet (cs : List Char) : Bool :=
  !cs.isEmpty && cs.length ≤ 4
    && cs.all fun c => c.isDigit || ('a' ≤ c && c ≤ 'f') || ('A' ≤ c && c ≤ 'F')

/-- The groups between the colons of a host, a dotted number at the end counted as two groups; none
if that number is malformed. -/
def groups? (cs : List Char) : Option (List (List Char)) :=
  let parts := Text.splitAt ':' cs
  match parts.getLast? with
  | none => none
  | some last =>
    if parts.length < 3 then none
    else if last.contains '.' then
      if isDottedQuad last then some (parts.dropLast ++ [['0'], ['0']]) else none
    else some parts

/-- Eight groups of hexadecimal digits, one run of zero groups perhaps written as `::`. -/
def isAddress (cs : List Char) : Bool :=
  match groups? cs with
  | none => false
  | some parts =>
    let inner := (parts.drop 1).dropLast
    if 9 < parts.length then false
    else
      match inner.filter List.isEmpty with
      | [] => parts.length == 8 && parts.all isHextet
      | [_] =>
        let high := parts.take (inner.takeWhile (!·.isEmpty)).length.succ
        let low := parts.drop (high.length + 1)
        let high := if high.head? == some [] then high.drop 1 else high
        let highOpen := (parts.head? == some [])
        let lowOpen := (parts.getLast? == some [])
        let low := if lowOpen then low.dropLast else low
        !(highOpen && !high.isEmpty) && !(lowOpen && !low.isEmpty)
          && high.length + low.length < 8 && high.all isHextet && low.all isHextet
      | _ => false

/-- An address, perhaps with a zone behind a percent sign. -/
def isScopedAddress (cs : List Char) : Bool :=
  !cs.contains '/'
    && match Text.cutAt '%' cs with
      | (address, none) => isAddress address
      | (address, some zone) => !zone.isEmpty && !zone.contains '%' && isAddress address

/-- A host of a future kind: `v`, hexadecimal digits, a dot and something. -/
def isFutureHost (cs : List Char) : Bool :=
  match Text.cutAt '.' (cs.drop 1) with
  | (digits, some rest) => isHexRun digits && !rest.isEmpty && !rest.contains '\n'
  | _ => false
where
  /-- One or more hexadecimal digits. -/
  isHexRun (cs : List Char) : Bool := !cs.isEmpty && cs.all fun c => isHextet [c]

/-- What may stand in brackets. -/
def isBracketedHost (cs : List Char) : Bool :=
  if cs.head? == some 'v' then isFutureHost cs else isScopedAddress cs

/-- Brackets are absent, or enclose a host. -/
def bracketsAreSound (authority : List Char) : Bool :=
  match authority.contains '[', authority.contains ']' with
  | false, false => true
  | true, true =>
    let inside := ((Text.cutAt '[' authority).2).getD []
    isBracketedHost (Text.cutAt ']' inside).1
  | _, _ => false

/-! ### The parts -/

/-- Splits a URI; none if its authority is malformed. -/
def split (cs : List Char) : Option Uri :=
  let (scheme, rest) := splitScheme (cleaned cs)
  let (authority, rest) :=
    match rest with
    | '/' :: '/' :: rest =>
      let ends := fun c => c == '/' || c == '?' || c == '#'
      (rest.takeWhile (!ends ·), rest.dropWhile (!ends ·))
    | _ => ([], rest)
  if bracketsAreSound authority && !authority.any (Text.inRanges delimiterLookalikes) then
    some ⟨scheme, authority, (Text.cutAt '?' (Text.cutAt '#' rest).1).1⟩
  else none

/-- Host and port as written. -/
def hostPort (authority : List Char) : List Char × List Char :=
  let info := Text.afterLast '@' authority
  match Text.cutAt '[' info with
  | (_, some bracketed) =>
    let (host, rest) := Text.cutAt ']' bracketed
    (host, ((Text.cutAt ':' (rest.getD [])).2).getD [])
  | (_, none) =>
    let (host, port) := Text.cutAt ':' info
    (host, port.getD [])

/-- The host in small letters, its zone as written. -/
def lowerHost (host : List Char) : List Char :=
  match Text.cutAt '%' host with
  | (name, none) => Text.lower name
  | (name, some zone) => Text.lower name ++ '%' :: zone

/-- The number of a port, none if it is absent; fails unless it is a number below 65536. -/
def port? (port : List Char) : Option (Option Nat) :=
  if port.isEmpty then some none
  else if port.all Char.isDigit then
    let n := port.foldl (fun n c => 10 * n + (c.toNat - '0'.toNat)) 0
    if n ≤ 65535 then some (some n) else none
  else none

/-- The parts by which absolute URIs are compared. -/
structure Key where
  scheme : List Char
  host : List Char
  port : Option Nat
  path : List Char
  deriving DecidableEq, Repr

/-- The parts for comparison, if the text is a well-formed absolute URI; no path is the path `/`. -/
def key? (cs : List Char) : Option Key := do
  let uri ← split cs
  let (host, port) := hostPort uri.authority
  let port ← port? port
  if uri.scheme.isEmpty then none
  else some ⟨uri.scheme, lowerHost host, port, if uri.path.isEmpty then ['/'] else uri.path⟩

end Uri

end ContractSync.Reference
