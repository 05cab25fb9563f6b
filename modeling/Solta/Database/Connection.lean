import Solta.Lib.Run
import Solta.Lib.Overwrite
import Mathlib.Data.List.Sort

/-!
The connection to the database's server.

The puts the server has not answered are kept, and sent again, in their order, when the
connection was lost and is there again. An answer finds what waits for it by the number of its
request. The server takes puts and credentials in the order they come, what a put does and whether
it is refused depends on the put alone, and no one else writes; what is on the way when a
connection is lost, is lost. Puts of transactions, which are cancelled when a connection is lost,
and the queue for `onDisconnect` are left out; the app has none.
-/

namespace Solta

open Lib Overwrite Run

inductive ConnectionState
  | disconnected
  | gettingToken
  | connecting
  | authenticating
  | connected
  deriving DecidableEq

/-- A listen, which is another one when it is made again. -/
structure FOutstandingQuery (Q : Type) where
  query : Q
  object : ℕ
  deriving DecidableEq

namespace FPersistentConnection

/-- What the client asks of the server. -/
inductive Action (P Q : Type)
  | auth (credential : String)
  | unauth
  | put (request : P)
  | listen (query : Q)
  | unlisten (query : Q)

/-- What the server answers in the order it comes. -/
def Action.inOrder {P Q : Type} : Action P Q → Bool
  | .auth _ | .put _ => true
  | _ => false

/-- The blocks that wait for an answer. -/
inductive Callback (Q : Type)
  | auth (restoreStateAfterComplete : Bool)
  | put (index : ℕ)
  | listen (listenSpec : FOutstandingQuery Q)

end FPersistentConnection

/-- What is on the way: the requests by number, and the answers. -/
structure FConnection (P Q : Type) where
  requests : List (ℕ × FPersistentConnection.Action P Q)
  answers : List (ℕ × Bool)

structure FPersistentConnection (P Q : Type) where
  connectionState : ConnectionState
  realtime : Option (FConnection P Q)
  authToken : Option String
  listens : List (FOutstandingQuery Q)
  outstandingPuts : List (ℕ × P)
  putCounter : ℕ
  requestNumber : ℕ
  requestCBHash : ℕ → Option (FPersistentConnection.Callback Q)
  unackedListensCount : ℕ
  putsToAck : List (P × Bool)

namespace FPersistentConnection

variable {P Q : Type} [DecidableEq Q]

def init : FPersistentConnection P Q where
  connectionState := .disconnected
  realtime := none
  authToken := none
  listens := []
  outstandingPuts := []
  putCounter := 0
  requestNumber := 0
  requestCBHash _ := none
  unackedListensCount := 0
  putsToAck := []

def connected (c : FPersistentConnection P Q) : Bool :=
  c.connectionState = .authenticating || c.connectionState = .connected

def canSendWrites (c : FPersistentConnection P Q) : Bool := c.connectionState = .connected

def sendAction (c : FPersistentConnection P Q) (action : Action P Q)
    (callback : Option (Callback Q)) : FPersistentConnection P Q :=
  { c with
    requestNumber := c.requestNumber + 1
    realtime := c.realtime.map fun w =>
      { w with requests := w.requests ++ [(c.requestNumber, action)] }
    requestCBHash := match callback with
      | some onMessage => Function.update c.requestCBHash c.requestNumber (some onMessage)
      | none => c.requestCBHash }

def sendPut (c : FPersistentConnection P Q) (index : ℕ) : FPersistentConnection P Q :=
  match c.outstandingPuts.lookup index with
  | some put => c.sendAction (.put put) (some (.put index))
  | none => c

def putInternal (c : FPersistentConnection P Q) (put : P) : FPersistentConnection P Q :=
  let index := c.putCounter
  let c := { c with
    putCounter := index + 1, outstandingPuts := c.outstandingPuts ++ [(index, put)] }
  if c.canSendWrites then c.sendPut index else c

def sendListen (c : FPersistentConnection P Q) (listenSpec : FOutstandingQuery Q) :
    FPersistentConnection P Q :=
  let c := c.sendAction (.listen listenSpec.query) (some (.listen listenSpec))
  { c with unackedListensCount := c.unackedListensCount + 1 }

def listen (c : FPersistentConnection P Q) (listenSpec : FOutstandingQuery Q) :
    FPersistentConnection P Q :=
  let c := { c with listens := c.listens ++ [listenSpec] }
  if c.connected then c.sendListen listenSpec else c

def removeListen (c : FPersistentConnection P Q) (query : Q) : FPersistentConnection P Q :=
  { c with listens := c.listens.filter fun l => l.query ≠ query }

def unlisten (c : FPersistentConnection P Q) (query : Q) : FPersistentConnection P Q :=
  let outstanding := c.listens.any fun l => l.query = query
  let c := c.removeListen query
  if outstanding && c.connected then c.sendAction (.unlisten query) none else c

def sendAuth (c : FPersistentConnection P Q) (credential : String)
    (restoreStateAfterComplete : Bool) : FPersistentConnection P Q :=
  c.sendAction (.auth credential) (some (.auth restoreStateAfterComplete))

def refreshAuthToken (c : FPersistentConnection P Q) (token : Option String) :
    FPersistentConnection P Q :=
  let c := { c with authToken := token }
  if c.connected then
    match token with
    | some credential => c.sendAuth credential false
    | none => c.sendAction .unauth none
  else c

def restoreState (c : FPersistentConnection P Q) : FPersistentConnection P Q :=
  let c := c.listens.foldl sendListen c
  let keys := (c.outstandingPuts.map Prod.fst).insertionSort (· ≤ ·)
  keys.foldl sendPut c

def restoreAuth (c : FPersistentConnection P Q) : FPersistentConnection P Q :=
  match c.authToken with
  | none => restoreState { c with connectionState := .connected }
  | some credential => { c with connectionState := .authenticating }.sendAuth credential true

def onDisconnect (c : FPersistentConnection P Q) : FPersistentConnection P Q :=
  { c with
    connectionState := .disconnected, realtime := none
    requestCBHash := fun _ => none, unackedListensCount := 0 }

/-- The connection, and the puts whose completion blocks are called. -/
def ackPuts (c : FPersistentConnection P Q) : FPersistentConnection P Q × List (P × Bool) :=
  ({ c with putsToAck := [] }, c.putsToAck)

def onAuthResponse (c : FPersistentConnection P Q) (restoreStateAfterComplete statusOk : Bool) :
    FPersistentConnection P Q :=
  let c := { c with connectionState := .connected }
  if statusOk then
    if restoreStateAfterComplete then c.restoreState else c
  else { c with authToken := none }.onDisconnect

def onPutResponse (c : FPersistentConnection P Q) (index : ℕ) (statusOk : Bool) :
    FPersistentConnection P Q × List (P × Bool) :=
  match c.outstandingPuts.lookup index with
  | none => (c, [])
  | some put =>
    let c := { c with outstandingPuts := c.outstandingPuts.filter fun e => e.1 ≠ index }
    if c.unackedListensCount = 0 then (c, [(put, statusOk)])
    else ({ c with putsToAck := c.putsToAck ++ [(put, statusOk)] }, [])

def onListenResponse (c : FPersistentConnection P Q) (listenSpec : FOutstandingQuery Q)
    (statusOk : Bool) : FPersistentConnection P Q × List (P × Bool) :=
  let c := if listenSpec ∈ c.listens ∧ statusOk = false then c.removeListen listenSpec.query else c
  let c := { c with unackedListensCount := c.unackedListensCount - 1 }
  if c.unackedListensCount = 0 then c.ackPuts else (c, [])

/-- The answer to a request. -/
def onDataMessage (c : FPersistentConnection P Q) (rn : ℕ) (statusOk : Bool) :
    FPersistentConnection P Q × List (P × Bool) :=
  match c.requestCBHash rn with
  | none => (c, [])
  | some callback =>
    let c := { c with requestCBHash := Function.update c.requestCBHash rn none }
    match callback with
    | .auth restoreStateAfterComplete =>
      (c.onAuthResponse restoreStateAfterComplete statusOk, [])
    | .put index => c.onPutResponse index statusOk
    | .listen listenSpec => c.onListenResponse listenSpec statusOk

end FPersistentConnection

/-! ### The connection and the server -/

/-- What may happen. -/
inductive Exchange.Event (P Q : Type)
  | putData (put : P)
  | listen (listenSpec : FOutstandingQuery Q)
  | unlisten (query : Q)
  | refreshAuthToken (token : Option String)
  | fetchToken
  | tokenFetched (token : Option String)
  | tokenFailed
  | ready
  | answer (position : ℕ) (ok : Bool)
  | receive
  | disconnect

/-- The client, the server's data, and what the app has seen: the puts it made, and the ones whose
completion blocks were called. -/
structure Exchange (P Q K V : Type) where
  connection : FPersistentConnection P Q
  data : Leaves K V
  made : List P
  completed : List (P × Bool)

namespace Exchange

variable {P Q K V : Type} [DecidableEq Q] [DecidableEq K]
  (effect : P → Option (List K × Leaves K V))

def init (data : Leaves K V) : Exchange P Q K V := ⟨.init, data, [], []⟩

/-- The server's data after some puts; `effect` is what the rules let a put write. -/
def apply (data : Leaves K V) (ps : List P) : Leaves K V := puts data (ps.filterMap effect)

/-- The server takes a request and answers it. -/
def answer (s : Exchange P Q K V) (w : FConnection P Q) (position : ℕ) (ok : Bool) :
    Option (Exchange P Q K V) :=
  match w.requests[position]? with
  | none => none
  | some (rn, action) =>
    if action.inOrder && (w.requests.take position).any fun e => e.2.inOrder then none
    else
      let requests := w.requests.eraseIdx position
      let reply (ok : Bool) : FPersistentConnection P Q :=
        { s.connection with realtime := some ⟨requests, w.answers ++ [(rn, ok)]⟩ }
      match action with
      | .put p => some { s with
          connection := reply (effect p).isSome, data := apply effect s.data [p] }
      | .auth _ | .listen _ => some { s with connection := reply ok }
      | .unauth | .unlisten _ => some { s with
          connection := { s.connection with realtime := some ⟨requests, w.answers⟩ } }

def step (s : Exchange P Q K V) : Event P Q → Option (Exchange P Q K V)
  | .putData put => some { s with
      connection := s.connection.putInternal put, made := s.made ++ [put] }
  | .listen listenSpec => some { s with connection := s.connection.listen listenSpec }
  | .unlisten query => some { s with connection := s.connection.unlisten query }
  | .refreshAuthToken token => some { s with connection := s.connection.refreshAuthToken token }
  | .fetchToken =>
    if s.connection.connectionState = .disconnected then
      some { s with connection := { s.connection with connectionState := .gettingToken } }
    else none
  | .tokenFetched token =>
    if s.connection.connectionState = .gettingToken then
      some { s with connection := { s.connection with
        authToken := token, connectionState := .connecting, realtime := some ⟨[], []⟩ } }
    else none
  | .tokenFailed =>
    if s.connection.connectionState = .gettingToken then
      some { s with connection := { s.connection with connectionState := .disconnected } }
    else none
  | .ready =>
    if s.connection.connectionState = .connecting then
      some { s with connection := s.connection.restoreAuth }
    else none
  | .answer position ok =>
    match s.connection.realtime with
    | none => none
    | some w => answer effect s w position ok
  | .receive =>
    match s.connection.realtime with
    | some ⟨requests, (rn, ok) :: answers⟩ =>
      let r := { s.connection with realtime := some ⟨requests, answers⟩ }.onDataMessage rn ok
      some { s with connection := r.1, completed := s.completed ++ r.2 }
    | _ => none
  | .disconnect => some { s with connection := s.connection.onDisconnect }

end Exchange

end Solta
