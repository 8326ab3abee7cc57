import Hyper4k.Bridge.View

/-! The whole client: every request's slot, the executor's ready queue, the network
tasks, and the API calls in progress on any number of threads. -/
namespace Hyper4k.Bridge

abbrev ReqId := Nat

/-- What is fixed when the client is built, and which ids are sent with an `OnChunk`.
An id is handed out once, so the table says what each `send` passed. -/
structure Config where
  maxInflight : Nat
  maxBytes : Nat
  queueCapacity : Nat
  onChunk : ReqId → Bool

/-- A `send` call's arguments: the verdict of the argument checks, the bytes to
reserve, and how its attempts start. -/
structure SendArgs where
  refused : Option Status
  bytes : Nat
  attempt : Attempt
  deriving DecidableEq, Repr

inductive SendPc
  | loadClosed
  | fetchId
  | addInflight (id : ReqId)
  | addBytes (id : ReqId)
  | undoBytes
  | undoInflight
  | enterBridges (id : ReqId)
  | insert (id : ReqId)
  | writeId (id : ReqId)
  | spawn (id : ReqId)
  | setAbort (id : ReqId)
  deriving DecidableEq, Repr

/-- An API call in progress. `free` is a `close` followed by the wait for the bridges. -/
inductive Call
  | idle
  | sending (args : SendArgs) (pc : SendPc)
  | lookup (r : ReqId) (e : Entry)
  | request (r : ReqId) (pc : Pc)
  | storeClosed (free : Bool)
  | snapshot (free : Bool)
  | closing (todo : List ReqId) (free : Bool)
  | closingOn (r : ReqId) (pc : Pc) (todo : List ReqId) (free : Bool)
  | waitZero
  | done (status : Status)
  deriving DecidableEq, Repr

inductive Api
  | send (args : SendArgs)
  | resume (r : ReqId)
  | cancel (r : ReqId)
  | close
  | free
  deriving DecidableEq, Repr

def Api.start : Api → Call
  | .send args => .sending args .loadClosed
  | .resume r => .lookup r .resume
  | .cancel r => .lookup r .cancel
  | .close => .storeClosed false
  | .free => .storeClosed true

structure Client where
  slots : ReqId → Slot
  ready : List ReqId
  workers : Nat → Option (ReqId × Pc)
  tasks : ReqId → Pc
  calls : Nat → Call
  requests : List ReqId
  closed : Bool
  nextId : ReqId
  outIds : List ReqId
  bridges : Int
  inflight : Int
  bytes : Int
  reserved : ReqId → Nat
  connPaused : ConnId → Int

def Client.init (cfg : Config) : Client where
  slots r := { onChunk := cfg.onChunk r, space := cfg.queueCapacity }
  ready := []
  workers _ := none
  tasks _ := .away
  calls _ := .idle
  requests := []
  closed := false
  nextId := 1
  outIds := []
  bridges := 0
  inflight := 0
  bytes := 0
  reserved _ := 0
  connPaused _ := 0

def Client.addPaused (s : Client) (conn : Option ConnId) (d : Int) : Client :=
  match conn with
  | some c => { s with connPaused := Function.update s.connPaused c (s.connPaused c + d) }
  | none => s

def Client.apply (s : Client) (r : ReqId) : Effect → Client
  | .quiet => s
  | .push => { s with ready := s.ready ++ [r] }
  | .newGuard conn => s.addPaused conn 1
  | .dropGuard conn => s.addPaused conn (-1)
  | .dropBytes => { s with bytes := s.bytes - s.reserved r }
  | .dropInflight => { s with inflight := s.inflight - 1 }
  | .removeRequest => { s with requests := s.requests.filter (· ≠ r) }
  | .leave => { s with bridges := s.bridges - 1 }

/-- A thread's step on slot `r`, as the rest of the client sees it. -/
def Client.commit (s : Client) (r : ReqId) (o : Outcome) : Client :=
  { s with slots := Function.update s.slots r o.slot }.apply r o.effect

def Client.setWorker (s : Client) (n : Nat) (r : ReqId) (pc : Pc) : Client :=
  { s with workers := Function.update s.workers n (if pc = .away then none else some (r, pc)) }

def Client.setTask (s : Client) (r : ReqId) (pc : Pc) : Client :=
  { s with tasks := Function.update s.tasks r pc }

def Client.setCall (s : Client) (n : Nat) (c : Call) : Client :=
  { s with calls := Function.update s.calls n c }

/-- `hyper4k_client_send`, one access at a time. -/
def Client.send (cfg : Config) (s : Client) (n : Nat) (args : SendArgs) : SendPc → Client
  | .loadClosed =>
    s.setCall n (if s.closed then .done .clientClosed else match args.refused with
      | some status => .done status
      | none => .sending args .fetchId)
  | .fetchId => { s with nextId := s.nextId + 1 }.setCall n (.sending args (.addInflight s.nextId))
  | .addInflight id =>
    { s with inflight := s.inflight + 1 }.setCall n
      (.sending args (if s.inflight ≥ cfg.maxInflight then .undoInflight else .addBytes id))
  | .addBytes id =>
    { s with bytes := s.bytes + args.bytes, reserved := Function.update s.reserved id args.bytes }.setCall n
      (.sending args (if s.bytes + args.bytes > cfg.maxBytes then .undoBytes else .enterBridges id))
  | .undoBytes => { s with bytes := s.bytes - args.bytes }.setCall n (.sending args .undoInflight)
  | .undoInflight => { s with inflight := s.inflight - 1 }.setCall n (.done .resourceExhausted)
  | .enterBridges id => { s with bridges := s.bridges + 1 }.setCall n (.sending args (.insert id))
  | .insert id => { s with requests := s.requests ++ [id] }.setCall n (.sending args (.writeId id))
  | .writeId id => { s with outIds := s.outIds ++ [id] }.setCall n (.sending args (.spawn id))
  | .spawn id => (s.setTask id (.acquire args.attempt)).setCall n (.sending args (.setAbort id))
  | .setAbort id =>
    { s with slots := Function.update s.slots id { s.slots id with abort := true } }.setCall n (.done .ok)

def Client.advance (cfg : Config) (s : Client) (n : Nat) : Option Client :=
  match s.calls n with
  | .idle => none
  | .sending args pc => some (s.send cfg n args pc)
  | .lookup r e => some (s.setCall n (if r ∈ s.requests then .request r e.pc else .done .notFound))
  | .request r pc =>
    match (s.slots r).exec pc with
    | some o => some ((s.commit r o).setCall n (if o.pc = .away then .idle else .request r o.pc))
    | none => none
  | .storeClosed free => some ({ s with closed := true }.setCall n (.snapshot free))
  | .snapshot free => some (s.setCall n (.closing s.requests free))
  | .closing [] free => some (s.setCall n (if free then .waitZero else .done .ok))
  | .closing (r :: todo) free =>
    some (s.setCall n (if r ∈ s.requests then .closingOn r Entry.close.pc todo free else .closing todo free))
  | .closingOn r pc todo free =>
    match (s.slots r).exec pc with
    | some o => some ((s.commit r o).setCall n
        (if o.pc = .away then .closing todo free else .closingOn r o.pc todo free))
    | none => none
  -- `wait_zero` returns only on a zero count
  | .waitZero => if s.bridges = 0 then some (s.setCall n (.done .ok)) else none
  | .done _ => some (s.setCall n .idle)

inductive Act
  | pop (n : Nat)
  | worker (n : Nat)
  | workerEnv (n : Nat) (c : Choice)
  | task (r : ReqId)
  | taskEnv (r : ReqId) (c : Choice)
  | begin (n : Nat) (api : Api)
  | call (n : Nat)
  deriving DecidableEq, Repr

def Client.step (cfg : Config) (s : Client) : Act → Option Client
  | .pop n => match s.workers n, s.ready with
    | none, r :: rest => some ({ s with ready := rest }.setWorker n r (.swapRunning SLICE))
    | _, _ => none
  | .worker n => match s.workers n with
    | some (r, pc) => ((s.slots r).exec pc).map fun o => (s.commit r o).setWorker n r o.pc
    | none => none
  | .workerEnv n c => match s.workers n with
    | some (r, pc) => ((s.slots r).env pc c).map fun o => (s.commit r o).setWorker n r o.pc
    | none => none
  | .task r => ((s.slots r).exec (s.tasks r)).map fun o => (s.commit r o).setTask r o.pc
  | .taskEnv r c => ((s.slots r).env (s.tasks r) c).map fun o => (s.commit r o).setTask r o.pc
  | .begin n api => if s.calls n = .idle then some (s.setCall n api.start) else none
  | .call n => s.advance cfg n

abbrev Client.Reaches (cfg : Config) (ok : Client → Act → Prop) (s : Client) (as : List Act)
    (t : Client) : Prop :=
  Runs.Run (Client.step cfg) ok s as t

/-- A client and a schedule for concrete runs: request 1 is accepted and its head queued. -/
def Config.small : Config := ⟨4, 4096, 8, fun _ => true⟩

def headQueued : List Act :=
  Act.begin 0 (.send ⟨none, 10, ⟨false, 0⟩⟩) :: List.replicate 10 (.call 0) ++
    [Act.taskEnv 1 (.leased 5), .task 1, .taskEnv 1 (.response 200 1 [])] ++ List.replicate 9 (Act.task 1)

/-- Worker 0 is in the callback of the first chunk. -/
def inFirstChunk : List Act :=
  headQueued ++ Act.taskEnv 1 (.frame (.data [7])) :: List.replicate 8 (.task 1) ++ Act.pop 0 ::
    List.replicate 9 (.worker 0) ++ Act.workerEnv 0 (.action .cont) :: List.replicate 8 (.worker 0)

def pauseAnswered : List Act := .workerEnv 0 (.action .pause) :: List.replicate 8 (.worker 0)

end Hyper4k.Bridge
