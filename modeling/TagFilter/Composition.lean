import TagFilter.Filter
import TagFilter.OrderedMap

/-! # Composite filters

Several filters over common bytes are factored into one composite, which checks
the bits that all of them fix to the same value, and a residue for each, which
checks what is left. An identifier passes a filter exactly when it passes the
composite and that filter's residue.
-/
namespace TagFilter

/-- A composite with the residue of each pattern. -/
structure Composition where
  composite : Filter
  residues : OrderedMap Pattern Filter
  deriving DecidableEq, Repr

namespace Composition

/-- The pattern of one byte: masked bits are wildcards. -/
def bytePattern (value mask : UInt8) : Pattern :=
  (List.range 8).map fun i =>
    if mask.toNat.testBit (7 - i) then 'x'
    else if value.toNat.testBit (7 - i) then '1'
    else '0'

/-- The value and mask bytes of a filter at an index it covers. -/
def bytesAt (f : Filter) (index : Nat) : UInt8 × UInt8 := (f.byteAt? index).getD (0xFF, 0xFF)

/-- The value and mask of the composite at one index. A bit on which two filters
differ is one on which some filter differs from the first. -/
def sharedByte (first : Filter) (filters : List Filter) (index : Nat) : UInt8 × UInt8 :=
  let values := filters.foldl (fun bits f => bits ||| (bytesAt f index).1) 0
  let masks := filters.foldl (fun bits f => bits ||| (bytesAt f index).2) 0
  let differences :=
    filters.foldl (fun bits f => bits ||| ((bytesAt first index).1 ^^^ (bytesAt f index).1)) 0
  (values, masks ||| differences)

/-- What is left of a filter: bytes that the composite already checks alike are
left open. -/
def residueOf (composite f : Filter) : Filter :=
  let pattern := (List.range f.byteSize).flatMap fun i =>
    let index := f.firstByte + i
    let (value, mask) := bytesAt f index
    if composite.byteAt? index = some (value, mask) then List.replicate 8 'x'
    else bytePattern value mask
  Filter.encode pattern (8 * f.firstByte)

/-- The first byte that all filters have reached. -/
def head (first : Filter) (filters : List Filter) : Nat :=
  (filters.map Filter.firstByte).foldl max first.firstByte

/-- The first byte that some filter has left behind. -/
def tail (first : Filter) (filters : List Filter) : Nat :=
  (filters.map Filter.byteEnd).foldl min first.byteEnd

def compose (filters : List Filter) : Except FilterError Composition :=
  match filters with
  | [] => .error .emptyFilterSet
  | first :: _ =>
    let head := head first filters
    let tail := tail first filters
    if tail ≤ head then .error (.noOverlap head tail)
    else
      let pattern := (List.range (tail - head)).flatMap fun i =>
        let (value, mask) := sharedByte first filters (head + i)
        bytePattern value mask
      let composite := Filter.encode pattern (8 * head)
      .ok ⟨composite, OrderedMap.ofList (filters.map fun f => (f.pattern, residueOf composite f))⟩

def residue? (c : Composition) (pattern : Pattern) : Option Filter := c.residues.get? pattern

/-- Whether an identifier passes the filter with the given pattern, none when
there is no such filter. -/
def accepts? (c : Composition) (pattern : Pattern) (id : Identifier) : Option Bool :=
  (c.residue? pattern).map fun residue => c.composite.accepts id && residue.accepts id

/-- A degenerate composite checks nothing. -/
def isDegenerate (c : Composition) : Bool := c.composite.isTransparent

end Composition
end TagFilter
