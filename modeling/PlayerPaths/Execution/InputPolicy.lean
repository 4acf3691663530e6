import PlayerPaths.Execution.Policy
import PlayerPaths.Input.LeadsTo

/-!
# The policy for input

A call of a polling method splits into the cases that a player can bring about: the sign of an
axis, the cell of the screen that the mouse points to, and pressed or not for buttons and keys.
Polling twice in a state gives the same value. Branches that do not lead to input are not
followed.
-/

namespace PlayerPaths

open IL

/-- Polls are told apart by their method and the texts of their arguments. -/
abbrev pollOrder : String × String → String × String → Ordering :=
  compareLex (compareOn Prod.fst) (compareOn Prod.snd)

/-- The polls of a state, with the numbers of their calls. -/
structure Polls where
  ids : Std.TreeMap (String × String) Nat pollOrder := ∅

abbrev InputState := State Polls

/-- Whether a button turned to pressed, or to released, since the frame before. -/
inductive Edge where
  | down | up
  deriving DecidableEq, Repr

def vectorType : String := "UnityEngine.Vector3"

def within (value : Formula) (low high : Float) : Result Formula := do
  Build.and [← Build.compareArith .ge value (.real low),
    ← Build.compareArith .le value (.real high)]

def fraction (numerator denominator : Nat) : Formula :=
  .real (Float.ofNat numerator / Float.ofNat denominator)

def isClear (value : Formula) : Result Formula := do
  match ← value.sort with
  | .bitVec width => Build.eq value (.bits 0 width)
  | s => throw (.sort (s.text ++ " is not a flag"))

def isSet (value : Formula) : Result Formula := do Build.not (← isClear value)

def isAxis (m : MethodRef) : Bool := "GetAxis".toList.isPrefixOf m.name.toList

def isMousePosition (m : MethodRef) : Bool := m.name == "get_mousePosition"

/-- The polling methods of buttons, keys and mouse buttons: what they poll, and the edge that they
look for. -/
def buttonMethods : List (String × String × Option Edge) :=
  ["GetButton", "GetKey", "GetMouseButton"].flatMap fun name =>
    [(name, name, none), (name ++ "Down", name, some .down), (name ++ "Up", name, some .up)]

namespace Context

def api (c : Context) : InputApi := c.options.inputApi

/-- The value of a poll, and whether it is the first one of its kind in the state. -/
def poll (c : Context) (s : InputState) (m : MethodRef) (arguments : List Formula) :
    Result (Formula × Bool × InputState) := do
  let key := (m.signature, ";".intercalate (← Formula.texts arguments))
  let (id, first, s) := match s.data.ids[key]? with
    | some id => (id, false, s)
    | none =>
      let (id, s) := s.nextCall
      (id, true, { s with data := ⟨s.data.ids.insert key id⟩ })
  let (value, s) ← c.symbolicCall s m arguments id first
  match value with
  | some value => return (value, first, s)
  | none => throw (.unsupported ("input API " ++ m.signature ++ " has no value"))

/-- What is known about the value of a call of the input type: an axis is between -1 and 1, and
the mouse is on the screen. -/
def callAssumptions (c : Context) (id : Nat) (m : MethodRef) : Result (List Formula) := do
  if m.declaringType ≠ c.api.inputType then return []
  match ← freshValue c.sorts (.symcall id) m.returnType with
  | none => return []
  | some value =>
    if isAxis m then return [← within value (-1.0) 1.0]
    if isMousePosition m then
      return [← within (← Build.get value "x") 0.0 1.0, ← within (← Build.get value "y") 0.0 1.0]
    return []

/-- What is known about the values of all polls of a state. -/
def assumptions (c : Context) (s : InputState) : Result (List Formula) := do
  let known ← s.calls.toList.mapM fun (id, call) => c.callAssumptions id call.method
  return known.flatten

/-- Conditions that a player can bring about in a state. -/
def possible (c : Context) (s : InputState) (conditions : List Formula) : Result Bool := do
  c.feasible s (conditions ++ (← c.assumptions s))

/-- One fork of a state per possible case, or an aborted state when there is none. -/
def split (c : Context) (s : InputState) (cases : List Formula) (value : Formula) :
    Result (List (InputState × Option Formula)) := do
  match ← cases.filterM fun case => c.possible s [case] with
  | [] => return [(s.abort, some value)]
  | cases => cases.mapM fun case => return (← s.assume case, some value)

def axisCondition (value : Formula) : AxisCase → Result Formula
  | .positive => Build.compareArith .gt value (.real 0.0)
  | .negative => Build.compareArith .lt value (.real 0.0)
  | .zero => Build.eq value (.real 0.0)

def cellCondition (c : Context) (x y : Formula) (column row : Nat) : Result Formula := do
  let (width, height) := (c.options.gridWidth, c.options.gridHeight)
  Build.and [← Build.compareArith .ge x (fraction column width),
    ← Build.compareArith .lt x (fraction (column + 1) width),
    ← Build.compareArith .ge y (fraction row height),
    ← Build.compareArith .lt y (fraction (row + 1) height)]

/-- The conditions of all cells of the screen, column by column. -/
def cellConditions (c : Context) (x y : Formula) : Result (List Formula) := do
  let cells := (List.range c.options.gridWidth).flatMap fun column =>
    (List.range c.options.gridHeight).map fun row => (column, row)
  cells.mapM fun (column, row) => c.cellCondition x y column row

def pollAxis (c : Context) (s : InputState) (m : MethodRef) (arguments : List Formula) :
    Result (List (InputState × Option Formula)) := do
  let (value, first, s) ← c.poll s m arguments
  if !first then return [(s, some value)]
  c.split s (← c.options.axisPartition.mapM (axisCondition value)) value

def pollMousePosition (c : Context) (s : InputState) (m : MethodRef) (arguments : List Formula) :
    Result (List (InputState × Option Formula)) := do
  let (value, first, s) ← c.poll s m arguments
  if !first then return [(s, some value)]
  c.split s (← c.cellConditions (← Build.get value "x") (← Build.get value "y")) value

/-- The fork of a state that assumes conditions, if a player can bring them about. -/
def fork? (c : Context) (s : InputState) (conditions : List Formula)
    (finish : InputState → InputState × Option Formula) :
    Result (List (InputState × Option Formula)) := do
  if ← c.possible s conditions then return [finish (← s.assumeAll conditions)]
  return []

/-- Poll for an edge: the contrary edge does not happen while the value is looked at, so a state
with it is aborted. -/
def pollEdge (c : Context) (s : InputState) (edge : Edge) (pressed wasPressed : Formula)
    (width : Nat) : Result (List (InputState × Option Formula)) := do
  let zero := Formula.bits 0 width
  let down := [← Build.eq wasPressed zero, ← Build.ne pressed zero]
  let up := [← Build.ne wasPressed zero, ← Build.eq pressed zero]
  let (asked, contrary) := match edge with
    | .down => (down, up)
    | .up => (up, down)
  let no ← c.fork? s [← Build.not (← Build.and asked)] fun s => (s, some (.bits 0 width))
  let yes ← c.fork? s asked fun s => (s, some (.bits 1 width))
  let aborted ← c.fork? s contrary fun s => (s.abort, none)
  match no ++ yes ++ aborted with
  | [] => return [(s.abort, none)]
  | forks => return forks

/-- Poll a button, a key or a mouse button, or one of its edges. Both the button now and in the
frame before count as polled. -/
def pollButton (c : Context) (s : InputState) (m : MethodRef) (arguments : List Formula) :
    Result (List (InputState × Option Formula)) := do
  match buttonMethods.lookup m.name with
  | none => throw (.unsupported ("input API " ++ m.signature))
  | some (base, edge) =>
    let method declaringType := MethodRef.static declaringType base m.parameterTypes m.returnType
    let (pressed, first, s) ← c.poll s (method c.api.inputType) arguments
    let (wasPressed, _, s) ← c.poll s (method c.api.previousInputType) arguments
    match ← c.sorts.sort m.returnType with
    | .bitVec width =>
      match edge with
      | some edge => c.pollEdge s edge pressed wasPressed width
      | none =>
        if !first then return [(s, some pressed)]
        let zero := Formula.bits 0 width
        c.split s [← Build.eq pressed zero, ← Build.ne pressed zero] pressed
    | t => throw (.sort (m.signature ++ " returns " ++ t.text))

/-- The value of engine state with a name. -/
def special (c : Context) (name : String) (t : Ty) : Result Formula := do
  match ← freshValue c.sorts (.special name) t with
  | some value => return value
  | none => throw (.unsupported ("special " ++ name ++ " has no value"))

/-- The left mouse button, now or in the frame before. -/
def pollMouseButton (c : Context) (s : InputState) (declaringType : String) :
    Result (Formula × InputState) := do
  let method := MethodRef.static declaringType "GetMouseButton" [.int32] .bool
  let (value, _, s) ← c.poll s method [.bits 0 32]
  return (value, s)

/-- Two states: the callback runs, or it does not. -/
def startStates (s : InputState) (inside outside : List Formula) : Result (List InputState) := do
  return [← s.assumeAll inside, (← s.assumeAll outside).abort]

/-- The start of a callback for a button that went down over the component. -/
def startAfterPress (c : Context) (s : InputState) (released : Bool) :
    Result (List InputState) := do
  let (pressed, s) ← c.pollMouseButton s c.api.inputType
  let wasDown ← c.special "instancemousewasdown" .bool
  if released then
    startStates s [← isSet wasDown, ← isClear pressed] [← isSet pressed]
  else startStates s [← isSet wasDown] [← isClear pressed]

/-- The start of a callback for the mouse over the bounds of the component. -/
def startOverBounds (c : Context) (s : InputState) (name : String) : Result (List InputState) := do
  let vector := c.program.typeOf vectorType
  if !vector.isStruct then throw (.unsupported (vectorType ++ " is not a value type"))
  let method := MethodRef.static c.api.inputType "get_mousePosition" [] vector
  let (position, _, s) ← c.poll s method []
  let x ← Build.get position "x"
  let y ← Build.get position "y"
  let bound (name : String) := c.special ("instancemousebounds" ++ name) .single
  let inBounds ← Build.and [← Build.compareArith .ge x (← bound "minx"),
    ← Build.compareArith .le x (← bound "maxx"), ← Build.compareArith .ge y (← bound "miny"),
    ← Build.compareArith .le y (← bound "maxy")]
  let onScreen ← Build.and [← within x 0.0 1.0, ← within y 0.0 1.0]
  let outOfBounds ← Build.not inBounds
  match name with
  | "OnMouseOver" => startStates s [inBounds] [outOfBounds, onScreen]
  | "OnMouseDown" =>
    let (pressed, s) ← c.pollMouseButton s c.api.inputType
    let (wasPressed, s) ← c.pollMouseButton s c.api.previousInputType
    startStates s [← isClear wasPressed, ← isSet pressed, inBounds] [← isClear pressed]
  | "OnMouseEnter" =>
    let entered ← c.special "instancemousedidenter" .bool
    startStates s [← isClear entered, inBounds] [outOfBounds, onScreen]
  | "OnMouseExit" =>
    let entered ← c.special "instancemousedidenter" .bool
    startStates s [← isSet entered, outOfBounds, onScreen] [inBounds]
  | _ =>
    let (pressed, s) ← c.pollMouseButton s c.api.inputType
    let wasDown ← c.special "instancemousewasdown" .bool
    startStates s [← isSet wasDown, ← isClear pressed, inBounds] [outOfBounds, onScreen]

/-- Mouse callbacks only run under the input that triggers them. The state in which the callback
does not run is kept, aborted. -/
def startStatesOf (c : Context) (s : InputState) : Result (List InputState) :=
  match c.entry.name with
  | "Update" | "FixedUpdate" | "LateUpdate" => return [s]
  | "OnMouseUp" => c.startAfterPress s true
  | "OnMouseDrag" => c.startAfterPress s false
  | "OnMouseOver" => c.startOverBounds s "OnMouseOver"
  | "OnMouseDown" => c.startOverBounds s "OnMouseDown"
  | "OnMouseEnter" => c.startOverBounds s "OnMouseEnter"
  | "OnMouseExit" => c.startOverBounds s "OnMouseExit"
  | "OnMouseUpAsButton" => c.startOverBounds s "OnMouseUpAsButton"
  | _ => throw (.unsupported ("entry point " ++ c.entry.fullName))

def summarizeInput (c : Context) (s : InputState) (m : MethodRef) (arguments : List Formula) :
    Result (List (InputState × Option Formula)) :=
  if !c.api.isInput m then c.unknownCall s m arguments
  else if isAxis m then c.pollAxis s m arguments
  else if isMousePosition m then c.pollMousePosition s m arguments
  else c.pollButton s m arguments

end Context

/-- A case of a branch cannot reach a poll any more, and neither the branch itself nor a call that
the state is inside of leads to one. -/
def vetoesCase (leads : LeadsResult) (s : InputState) (branch : Location)
    (target : Option Location) : Bool :=
  match s.frames with
  | [] => false
  | current :: callers =>
    let signature := current.method.signature
    !leads.leads signature branch &&
      !(callers.any fun f => leads.leads f.method.signature f.location) &&
      !(target.any fun l => leads.leads signature l)

def Policy.input (c : Context) (leads : LeadsResult) : Policy Polls where
  initial := {}
  start := c.startStatesOf
  summarizes m := c.api.isInput m || !c.isExecutable m || !leads.methodLeads m.signature
  summarize := c.summarizeInput
  vetoes := vetoesCase leads

end PlayerPaths
