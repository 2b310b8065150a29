import PointsTo.Solver.State

/-!
The rules of the analysis: what a statement of a reachable method asks for, and what the uses of a
variable ask for once an object of the variable is known.
-/
namespace PointsTo.Solver

namespace State

/-! ### Calls -/

/-- Passes an argument to its parameter. A constant passes nothing. -/
def pass (s : State) (arg : Option Variable) (param : Local) : State :=
  match arg with
  | some arg => s.flow (.var arg) (.var param.var)
  | none => s

/-- Passes the arguments of a call to the parameters of a body and its returned value to the result
of the call. -/
def bind (s : State) (site : CallSite) (callee : MethodName) (body : Body) : Progress :=
  if site.call.args.length ≠ body.params.length then
    .stopped s (.argumentMismatch site.place callee site.call.args.length body.params.length)
  else
    let s := (site.call.args.zip body.params).foldl (fun s x => s.pass x.1 x.2) s
    .going <|
      match body.returned, site.call.result with
      | some returned, some result => s.flow (.var returned.var) (.var result)
      | _, _ => s

/-- Adds a call edge. If it is new, the callee is reachable and the call is bound to its body, and
then `more` is done. -/
def connect (s : State) (site : CallSite) (callee : Method) (more : State → State) : Progress :=
  let edge := CallEdge.ofCall site callee.id
  let (isNew, calls) := s.calls.tryAddEdge edge
  let s := { s with calls }
  if !isNew then .going s
  else
    let s := (s.record (.linked edge)).reach callee.id
    match callee.body with
    | none => .going (more s)
    | some body => (s.bind site callee.id body).andThen fun s => .going (more s)

def receiverOf (m : Method) : Option Variable :=
  (m.body.bind Body.receiver).map Local.var

/-- Passes the receiver of a call as a whole to that of the callee. -/
def passReceiver (s : State) (call : Call) (callee : Method) : State :=
  match call.receiver, receiverOf callee with
  | some receiver, some self => s.flow (.var receiver) (.var self)
  | _, _ => s

/-- A call that is linked by its reference alone. -/
def linkCall (s : State) (p : Program) (site : CallSite) : Progress :=
  match p.resolveCall none site.call with
  | .found callee => s.connect site callee fun s => s.passReceiver site.call callee
  | _ => .going (s.record (.unresolved site.call.callee site.place))

/-- A call on a receiver that an object has reached. The object, and no other, is sent to the
receiver of the callee. -/
def dispatchCall (s : State) (p : Program) (o : ObjectId) (site : CallSite) : Progress :=
  match p.resolveCall (some (s.heap.typeOf o)) site.call with
  | .found callee =>
    let s := match receiverOf callee with
      | some self => (s.touch (.var self)).send (.var self) (OrderedSet.ofList [o])
      | none => s
    s.connect site callee id
  | .nothing => .going s
  | .outside receiverClass subsignature => .going (s.record (.outside receiverClass subsignature))
  | .missing receiverClass subsignature =>
    .stopped s (.noMethod receiverClass subsignature site.place)

/-- All calls on a variable, for an object that has reached it. -/
def processCalls (s : State) (p : Program) (v : Variable) (o : ObjectId) : Progress :=
  forEach (fun site s => (s.serve v o (.call site)).dispatchCall p o site) (s.usesOf v).calls s

/-! ### Statements -/

/-- What a statement asks for when its method becomes reachable. -/
def process (s : State) (p : Program) (m : Method) (place : Place) : Instruction → Progress
  | .allocate target type =>
    let (o, s) := s.allocate ⟨place, type⟩
    .going ((s.touch (.var target)).send (.var target) (OrderedSet.ofList [o]))
  | .copy target source => .going (s.flow (.var source) (.var target))
  | .loadStatic target field =>
    let (f, s) := s.resolve p field
    .going ((s.touchStatic f).flow (.static f.id) (.var target))
  | .storeStatic field source =>
    let (f, s) := s.resolve p field
    .going (((s.touch (.var source)).touchStatic f).flow (.var source) (.static f.id))
  | .loadField target base field =>
    .going (s.addUse base fun u => { u with loads := u.loads ++ [(target, field)] })
  | .storeField base field source =>
    .going (s.addUse base fun u => { u with stores := u.stores ++ [(field, source)] })
  | .loadElement target base =>
    .going (s.addUse base fun u => { u with elementLoads := u.elementLoads ++ [target] })
  | .storeElement base source =>
    .going (s.addUse base fun u => { u with elementStores := u.elementStores ++ [source] })
  | .call call =>
    if call.kind.isLinked then s.linkCall p ⟨place, call⟩
    else
      match call.receiver with
      | some receiver =>
        .going (s.addUse receiver fun u => { u with calls := u.calls ++ [⟨place, call⟩] })
      | none => .going (s.record (.ignored place))
  | .ret value =>
    .going <|
      match value, m.body.bind Body.returned with
      | some value, some returned =>
        if returned.var = value then s else s.flow (.var value) (.var returned.var)
      | _, _ => s
  | .other _ => .going s

/-! ### Objects -/

/-- Turns an access into an edge for an object that has reached its variable. -/
def access (s : State) (p : Program) (o : ObjectId) : Access → State
  | .store field source =>
    let (f, s) := s.resolve p field
    s.flow (.var source) (.field o f.id)
  | .load target field =>
    let (f, s) := s.resolve p field
    s.flow (.field o f.id) (.var target)
  | .storeElement source => s.flow (.var source) (.element o)
  | .loadElement target => s.flow (.element o) (.var target)

/-- What the accesses through a variable ask for when an object has reached it. -/
def materialize (s : State) (p : Program) (u : Uses) (o : ObjectId) : State :=
  u.accesses.foldl (fun s a => (s.serve u.base o (.access a)).access p o a) s

/-- Everything that the uses of a variable ask for when an object has reached it. -/
def discover (s : State) (p : Program) (v : Variable) (o : ObjectId) : Progress :=
  (s.materialize p (s.usesOf v) o).processCalls p v o

end State

end PointsTo.Solver
