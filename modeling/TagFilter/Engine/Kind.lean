/-! # Kinds of index

The four index structures, in their fixed order, with the name that settings,
events and stored engines use for each.
-/
namespace TagFilter

inductive EngineKind where
  | list
  | patriciaTrie
  | weightedTree
  | splayTree
  deriving DecidableEq, Repr

namespace EngineKind

def all : List EngineKind := [list, patriciaTrie, weightedTree, splayTree]

theorem mem_all (kind : EngineKind) : kind ∈ all := by cases kind <;> decide

def rank : EngineKind → Nat
  | list => 0
  | patriciaTrie => 1
  | weightedTree => 2
  | splayTree => 3

instance : LT EngineKind := ⟨fun a b => a.rank < b.rank⟩

instance : DecidableLT EngineKind := fun a b => inferInstanceAs (Decidable (a.rank < b.rank))

def name : EngineKind → String
  | list => "List"
  | patriciaTrie => "PatriciaTrie"
  | weightedTree => "WeightedTree"
  | splayTree => "SplayTree"

/-- What a stored engine of this kind begins with. -/
def tag (kind : EngineKind) : String := "Engine:" ++ kind.name

/-- Whether searching may change the structure. -/
def isSelfAdjusting (kind : EngineKind) : Bool := kind = splayTree

/-- Names are told apart without regard to the case of ASCII letters. -/
def ofName? (name : String) : Option EngineKind :=
  all.find? fun kind => kind.name.toList.map Char.toLower = name.toList.map Char.toLower

/-- Names spelled exactly. -/
def ofExactName? (name : String) : Option EngineKind :=
  all.find? fun kind => kind.name = name

end EngineKind
end TagFilter
