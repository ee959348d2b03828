import ScriptMachine.Value
import ScriptMachine.Dict

/-! Shared arrays and maps, and access to their parts by index, key and attribute name. -/

namespace ScriptMachine

/-- The arrays and maps that exist, each known by its place. A container is changed in place, and
every value that names it sees the change. -/
structure Heap where
  arrays : Array (Array Value) := #[]
  maps : Array (Dict Value) := #[]
  deriving Inhabited

namespace Heap

def elements (h : Heap) (id : ArrayId) : Array Value :=
  h.arrays.getD id #[]

def fields (h : Heap) (id : MapId) : Dict Value :=
  h.maps.getD id .empty

/-- The number of containers. Without cycles no chain of nested containers is longer. -/
def containers (h : Heap) : Nat :=
  h.arrays.size + h.maps.size

/-! ### New containers -/

def newArray (h : Heap) (xs : Array Value) : Value × Heap :=
  (.array h.arrays.size, { h with arrays := h.arrays.push xs })

def newMap (h : Heap) (d : Dict Value) : Value × Heap :=
  (.map h.maps.size, { h with maps := h.maps.push d })

/-! ### Changes in place -/

def setElement (h : Heap) (id : ArrayId) (position : Nat) (v : Value) : Heap :=
  { h with arrays := h.arrays.modify id (·.setIfInBounds position v) }

def setField (h : Heap) (id : MapId) (key : String) (v : Value) : Heap :=
  { h with maps := h.maps.modify id (·.insert key v) }

/-- A change of one array shows in that array only. -/
theorem elements_setElement (h : Heap) (id other : ArrayId) (place : Nat) (v : Value) :
    (h.setElement id place v).elements other
      = if other = id then (h.elements id).setIfInBounds place v else h.elements other := by
  simp only [elements, setElement, Array.getD_eq_getD_getElem?, Array.getElem?_modify]
  by_cases same : id = other
  · subst same
    cases h.arrays[id]? <;> simp
  · simp [same, Ne.symm same]

/-- A change of one map shows in that map only. -/
theorem fields_setField {h : Heap} {id : MapId} (exist : id < h.maps.size) (other : MapId)
    (key : String) (v : Value) :
    (h.setField id key v).fields other
      = if other = id then (h.fields id).insert key v else h.fields other := by
  simp only [fields, setField, Array.getD_eq_getD_getElem?, Array.getElem?_modify]
  by_cases same : id = other
  · subst same
    simp [exist]
  · simp [same, Ne.symm same]

/-! ### Slots -/

/-- A place for one value: an element of an array or a field of a map. -/
inductive Slot where
  | element (id : ArrayId) (position : Nat)
  | field (id : MapId) (key : String)
  deriving DecidableEq, Repr

def write (h : Heap) (v : Value) : Slot → Heap
  | .element id position => h.setElement id position v
  | .field id key => h.setField id key v

/-! ### Index and attribute access -/

/-- The place an index names among `length` elements. Negative indices name none. -/
def position (index : Int64) (length : Nat) : Except Interrupt Nat :=
  if 0 ≤ index.toInt ∧ index.toInt < length then .ok index.toInt.toNat
  else .error (Misuse.outOfBounds index length).interrupt

/-- Arrays and texts take an integer below their length, maps a text. A missing key reads as null,
and texts are indexed by code points. -/
def loadIndex (h : Heap) (target key : Value) : Except Interrupt Value :=
  match target, key with
  | .array id, .integer i => do
    let place ← position i (h.elements id).size
    return (h.elements id).getD place .null
  | .string s, .integer i => do
    let place ← position i s.length
    return .string ((s.toList[place]?).elim "" String.singleton)
  | .map id, .string name => .ok (((h.fields id).get? name).getD .null)
  | target, key => .error (Misuse.noIndexing target.kind key.kind).interrupt

/-- Whether two values name the same container. -/
def sameContainer : Value → Value → Bool
  | .array a, .array b => a == b
  | .map a, .map b => a == b
  | _, _ => false

/-- No container takes itself as an element. -/
def refuseSelf (target value : Value) : Except Interrupt Unit :=
  if sameContainer target value then .error (Misuse.storeIntoItself target.kind).interrupt
  else .ok ()

/-- Where a value goes that is stored under a key. -/
def indexSlot (h : Heap) (target key value : Value) : Except Interrupt Slot := do
  refuseSelf target value
  match target, key with
  | .array id, .integer i => return .element id (← position i (h.elements id).size)
  | .map id, .string name => return .field id name
  | target, key => .error (Misuse.noIndexAssignment target.kind key.kind).interrupt

def storeIndex (h : Heap) (target key value : Value) : Except Interrupt Heap :=
  (h.indexSlot target key value).map (h.write value)

/-- Only maps have attributes: their keys. -/
def loadAttribute (h : Heap) (target : Value) (name : String) : Except Interrupt Value :=
  match target with
  | .map id => .ok (((h.fields id).get? name).getD .null)
  | target => .error (Misuse.noAttributes target.kind).interrupt

/-- Where a value goes that is stored as an attribute. -/
def attributeSlot (target : Value) (name : String) (value : Value) : Except Interrupt Slot := do
  refuseSelf target value
  match target with
  | .map id => return .field id name
  | target => .error (Misuse.noAttributeAssignment target.kind).interrupt

def storeAttribute (h : Heap) (target : Value) (name : String) (value : Value) :
    Except Interrupt Heap :=
  (attributeSlot target name value).map (h.write value)

end Heap

end ScriptMachine
