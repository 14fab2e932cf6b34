import TagFilter.Engine.Basic

/-! # Stored engines

An engine is stored as its tag and its contents. Numbers take eight bytes, least
significant first; texts and lists begin with their length; an optional part
begins with a byte that is one if the part is there and zero if not. Readers
take what they need from the front of a byte string and return the rest, so
bytes after the end do no harm.
-/
namespace TagFilter

abbrev Reader (α : Type) := List UInt8 → Except BlobFault (α × List UInt8)

namespace Blob

/-- The lowest bytes of a number, least significant first. -/
def littleEndian : Nat → Nat → List UInt8
  | 0, _ => []
  | width + 1, n => UInt8.ofNat (n % 256) :: littleEndian width (n / 256)

def ofLittleEndian : List UInt8 → Nat
  | [] => 0
  | byte :: rest => byte.toNat + 256 * ofLittleEndian rest

def writeNat (n : Nat) : List UInt8 := littleEndian 8 n

def readNat : Reader Nat := fun bytes =>
  if bytes.length < 8 then .error .endOfData
  else .ok (ofLittleEndian (bytes.take 8), bytes.drop 8)

def writeText (text : String) : List UInt8 :=
  let bytes := Text.Utf8.encode text
  writeNat bytes.length ++ bytes

def readText : Reader String := fun bytes => do
  let (length, bytes) ← readNat bytes
  if bytes.length < length then throw .shortText
  match Text.Utf8.decode (bytes.take length) with
  | .ok text => return (text, bytes.drop length)
  | .error fault => throw (.badText fault)

def readByte : Reader UInt8
  | [] => .error .endOfData
  | byte :: rest => .ok (byte, rest)

def readMany {α : Type} (read : Reader α) : Nat → Reader (List α)
  | 0, bytes => .ok ([], bytes)
  | count + 1, bytes => do
    let (item, bytes) ← read bytes
    let (items, bytes) ← readMany read count bytes
    return (item :: items, bytes)

def writeMany {α : Type} (write : α → List UInt8) (items : List α) : List UInt8 :=
  writeNat items.length ++ items.flatMap write

def readList {α : Type} (read : Reader α) : Reader (List α) := fun bytes => do
  let (count, bytes) ← readNat bytes
  readMany read count bytes

/-- Whether an optional part follows. -/
def readPresence : Reader Bool := fun bytes => do
  let (tag, bytes) ← readByte bytes
  if tag = 0 then return (false, bytes)
  else if tag = 1 then return (true, bytes)
  else throw (.badOption tag)

def writeOption {α : Type} (write : α → List UInt8) : Option α → List UInt8
  | none => [0]
  | some a => 1 :: write a

def readOption {α : Type} (read : Reader α) : Reader (Option α) := fun bytes => do
  let (isPresent, bytes) ← readPresence bytes
  if isPresent then
    let (a, bytes) ← read bytes
    return (some a, bytes)
  else return (none, bytes)

def writePattern (p : Pattern) : List UInt8 := writeText (String.ofList p)

def readPattern : Reader Pattern := fun bytes => do
  let (text, bytes) ← readText bytes
  return (text.toList, bytes)

def writeFilter (f : Filter) : List UInt8 :=
  writePattern f.pattern ++ writeNat f.offset ++ writeNat f.firstByte ++
    writeMany (fun byte => [byte]) f.values ++ writeMany (fun byte => [byte]) f.masks

def readFilter : Reader Filter := fun bytes => do
  let (pattern, bytes) ← readPattern bytes
  let (offset, bytes) ← readNat bytes
  let (firstByte, bytes) ← readNat bytes
  let (values, bytes) ← readList readByte bytes
  let (masks, bytes) ← readList readByte bytes
  return (⟨pattern, offset, firstByte, values, masks⟩, bytes)

def writeEntry (entry : ListEntry) : List UInt8 := writeText entry.uri ++ writeFilter entry.filter

def readEntry : Reader ListEntry := fun bytes => do
  let (uri, bytes) ← readText bytes
  let (filter, bytes) ← readFilter bytes
  return (⟨uri, filter⟩, bytes)

def writeTrie : Trie → List UInt8
  | .empty => [0]
  | .node uri filter one zero =>
    1 :: writeOption writeText uri ++ writeFilter filter ++ writeTrie one ++ writeTrie zero

/-- The first argument is the number of bytes left, or more: with none left the
byte that says whether a node follows is missing. -/
def readTrieWithin : Nat → Reader Trie
  | 0, _ => .error .endOfData
  | steps + 1, bytes => do
    let (isPresent, bytes) ← readPresence bytes
    if isPresent then
      let (uri, bytes) ← readOption readText bytes
      let (filter, bytes) ← readFilter bytes
      let (one, bytes) ← readTrieWithin steps bytes
      let (zero, bytes) ← readTrieWithin steps bytes
      return (.node uri filter one zero, bytes)
    else return (.empty, bytes)

def readTrie : Reader Trie := fun bytes => readTrieWithin bytes.length bytes

def writeBranch (b : Branch) : List UInt8 :=
  writeText b.uri ++ writeFilter b.filter ++ writeNat b.weight.bits.toNat

def readBranch : Reader Branch := fun bytes => do
  let (uri, bytes) ← readText bytes
  let (filter, bytes) ← readFilter bytes
  let (bits, bytes) ← readNat bytes
  return (⟨uri, filter, ⟨UInt64.ofNat bits⟩⟩, bytes)

def writeTree : WeightedTree → List UInt8
  | .nil => [0]
  | .node b below rest => 1 :: writeBranch b ++ writeTree below ++ writeTree rest

/-- The first argument is the number of bytes left, or more. -/
def readTreeWithin : Nat → Reader WeightedTree
  | 0, _ => .error .endOfData
  | steps + 1, bytes => do
    let (isPresent, bytes) ← readPresence bytes
    if isPresent then
      let (b, bytes) ← readBranch bytes
      let (below, bytes) ← readTreeWithin steps bytes
      let (rest, bytes) ← readTreeWithin steps bytes
      return (.node b below rest, bytes)
    else return (.nil, bytes)

def readTree : Reader WeightedTree := fun bytes => readTreeWithin bytes.length bytes

def writeBody : Engine → List UInt8
  | .list entries => writeMany writeEntry entries
  | .patriciaTrie trie => writeTrie trie
  | .weightedTree tree => writeTree tree
  | .splayTree tree => writeTree tree

def readBody (kind : EngineKind) : Reader Engine := fun bytes =>
  match kind with
  | .list => (readList readEntry bytes).map fun (entries, rest) => (.list entries, rest)
  | .patriciaTrie => (readTrie bytes).map fun (trie, rest) => (.patriciaTrie trie, rest)
  | .weightedTree => (readTree bytes).map fun (tree, rest) => (.weightedTree tree, rest)
  | .splayTree => (readTree bytes).map fun (tree, rest) => (.splayTree tree, rest)

end Blob

namespace Engine

def toBytes (engine : Engine) : List UInt8 :=
  Blob.writeText engine.kind.tag ++ Blob.writeBody engine

def readAs (kind : EngineKind) (body : List UInt8) : Except FilterError Engine :=
  match Blob.readBody kind body with
  | .ok (engine, _) => .ok engine
  | .error fault => .error (.serialization fault)

/-- Reads an engine of one given kind. -/
def ofBytesAs (kind : EngineKind) (bytes : List UInt8) : Except FilterError Engine :=
  match Blob.readText bytes with
  | .error fault => .error (.serialization fault)
  | .ok (tag, body) =>
    if tag = kind.tag then readAs kind body else .error (.typeMismatch kind.tag tag)

/-- What is expected where any kind will do. -/
def anyTag : String := "Engine:<" ++ "|".intercalate (EngineKind.all.map EngineKind.name) ++ ">"

/-- Reads an engine of the kind that its tag names. -/
def ofBytes (bytes : List UInt8) : Except FilterError Engine :=
  match Blob.readText bytes with
  | .error fault => .error (.serialization fault)
  | .ok (tag, body) =>
    match EngineKind.all.find? fun kind => kind.tag = tag with
    | some kind => readAs kind body
    | none => .error (.typeMismatch anyTag tag)

end Engine
end TagFilter
