import Mathlib.Logic.Function.Basic
import Mathlib.Data.List.Basic
import LinuxCppLearn.Library.StepSystem

/-!
# The connection pool and its steps

`ConnPool` keeps idle connections in the queue `m_connQ` under `m_mutexQ`.
Clients take them through `getConn`, whose `shared_ptr` puts the connection
back by a custom deleter; a producer thread refills the queue and a recycler
thread deletes connections that were idle for too long.  Every critical
section under `m_mutexQ` is one action here.

A connection is named by its address.  `live` holds the addresses of the
`MysqlConn` objects that exist, so a deleted address may come back from a
later `new`.  `held` lists the ownership groups: one entry for all copies of
the `shared_ptr` that one `getConn` call returned.
-/

namespace LinuxCppLearn
namespace ConnPool

/-- The fields of `dbconf.json` the pool decides by. -/
structure Config where
  minSize : Nat
  maxSize : Nat
  /-- milliseconds -/
  maxIdleTime : Int

/-- Address of a `MysqlConn`. -/
abbrev Ptr := Nat

/-- A reading of `steady_clock`, in nanoseconds. -/
abbrev Time := Nat

structure Pool where
  /-- `m_connQ`, front first -/
  connQ : List Ptr
  /-- the connections created and not deleted -/
  live : List Ptr
  /-- `m_aliveTime` of each connection -/
  aliveTime : Ptr → Time
  /-- what `connect` returned for each connection -/
  connected : Ptr → Bool
  /-- ownership groups handed out by `getConn` -/
  held : List (Nat × Ptr)
  /-- latest reading of the clock -/
  clock : Time
  /-- the producer is blocked in `m_cond.wait`, not notified -/
  producerWaits : Bool
  /-- clients blocked in `m_cond.wait_for`, not notified -/
  clientWaits : Nat

/-- What the environment answers to one `addConn`: the address of the new
object, the result of `connect` and the clock. -/
structure NewConn where
  ptr : Ptr
  connectOk : Bool
  now : Time

/-- `new` returns no address in use, and the clock does not run backwards. -/
def NewConn.Fresh (p : Pool) (c : NewConn) : Prop :=
  c.ptr ∉ p.live ∧ p.clock ≤ c.now

instance (p : Pool) (c : NewConn) : Decidable (c.Fresh p) :=
  inferInstanceAs (Decidable (_ ∧ _))

/-- `addConn`: the result of `connect` is dropped. -/
def addConn (p : Pool) (c : NewConn) : Pool :=
  { p with
    connQ := p.connQ ++ [c.ptr]
    live := c.ptr :: p.live
    aliveTime := Function.update p.aliveTime c.ptr c.now
    connected := Function.update p.connected c.ptr c.connectOk
    clock := c.now }

/-- Who `notify_one` wakes. -/
inductive Notified
  | producer
  | client
  | nobody
deriving DecidableEq, Repr

/-- `notify_one` wakes a waiting thread if there is one. -/
def Notified.Possible (p : Pool) : Notified → Prop
  | .producer => p.producerWaits = true
  | .client => 0 < p.clientWaits
  | .nobody => p.producerWaits = false ∧ p.clientWaits = 0

instance (p : Pool) (who : Notified) : Decidable (who.Possible p) := by
  cases who with
  | producer => exact inferInstanceAs (Decidable (_ = _))
  | client => exact inferInstanceAs (Decidable (_ < _))
  | nobody => exact inferInstanceAs (Decidable (_ ∧ _))

def notifyOne (p : Pool) : Notified → Pool
  | .producer => { p with producerWaits := false }
  | .client => { p with clientWaits := p.clientWaits - 1 }
  | .nobody => p

/-- `m_cond.notify_all()`. -/
def notifyAll (p : Pool) : Pool :=
  { p with producerWaits := false, clientWaits := 0 }

/-- The end of `getConn`: wrap the front connection, pop it, notify. -/
def handOut (p : Pool) (group : Nat) (who : Notified) : Option Pool :=
  match p.connQ with
  | [] => none
  | conn :: rest =>
      some (notifyOne { p with connQ := rest, held := (group, conn) :: p.held } who)

/-- `getConn`: an empty queue is refilled by one connection while
`m_connQ.size() + 1 <= m_maxSize`; otherwise the client waits (`none`). -/
def getConn (cfg : Config) (p : Pool) (group : Nat) (new : NewConn) (who : Notified) :
    Option Pool :=
  if p.connQ.isEmpty then
    if p.connQ.length + 1 ≤ cfg.maxSize then handOut (addConn p new) group who
    else none
  else handOut p group who

/-- The custom deleter of a `shared_ptr`, run by its last handle. -/
def release (p : Pool) (group : Nat) (now : Time) : Option Pool :=
  match p.held.find? (fun entry => entry.1 == group) with
  | none => none
  | some entry =>
      some { p with
        connQ := p.connQ ++ [entry.2]
        held := p.held.erase entry
        aliveTime := Function.update p.aliveTime entry.2 now
        clock := now }

/-- One pass of `produceConn` through its critical section: it blocks while
`m_connQ.size() >= m_minSize`, else adds a connection and notifies all. -/
def produceConn (cfg : Config) (p : Pool) (new : NewConn) : Pool :=
  if cfg.minSize ≤ p.connQ.length then { p with producerWaits := true }
  else notifyAll (addConn p new)

/-- `getAliveTime` at a clock reading, in milliseconds (`duration_cast`
truncates). -/
def getAliveTime (p : Pool) (conn : Ptr) (now : Time) : Int :=
  ((now : Int) - p.aliveTime conn).tdiv 1000000

/-- The loop of `recycleConn`.  The list holds the clock readings of this
pass, one for each connection it looks at; `none` says that the readings are
not those of such a pass. -/
def recycleLoop (cfg : Config) : List Time → Pool → Option Pool
  | [], p => if cfg.minSize < p.connQ.length then none else some p
  | now :: readings, p =>
      if cfg.minSize < p.connQ.length ∧ p.clock ≤ now then
        match p.connQ with
        | [] => none
        | conn :: rest =>
            -- `m_connQ.pop(); delete conn;`
            if cfg.maxIdleTime ≤ getAliveTime p conn now then
              recycleLoop cfg readings
                { p with
                  connQ := rest
                  live := p.live.filter (· ≠ conn)
                  clock := now }
            -- `break`: the connections behind the front one are not looked at
            else if readings.isEmpty then some { p with clock := now }
            else none
      else none

inductive Action
  | getConn (group : Nat) (new : NewConn) (who : Notified)
  | getConnWait
  | clientWake
  | release (group : Nat) (now : Time)
  | produce (new : NewConn)
  | producerWake
  | recycle (readings : List Time)

/-- One critical section under `m_mutexQ`, or a wake-up. -/
def step (cfg : Config) (p : Pool) : Action → Option Pool
  | .getConn group new who =>
      if group ∉ p.held.map Prod.fst ∧ who.Possible p ∧ (p.connQ = [] → new.Fresh p) then
        getConn cfg p group new who
      else none
  | .getConnWait =>
      if p.connQ = [] ∧ cfg.maxSize < p.connQ.length + 1 then
        some { p with clientWaits := p.clientWaits + 1 }
      else none
  -- timed out or woken spuriously; the client is back at its loop
  | .clientWake =>
      if 0 < p.clientWaits then some { p with clientWaits := p.clientWaits - 1 } else none
  | .release group now => if p.clock ≤ now then release p group now else none
  | .produce new =>
      if p.producerWaits = false ∧ (p.connQ.length < cfg.minSize → new.Fresh p) then
        some (produceConn cfg p new)
      else none
  | .producerWake =>
      if p.producerWaits = true then some { p with producerWaits := false } else none
  | .recycle readings => recycleLoop cfg readings p

/-- The pool before the constructor fills it. -/
def emptyPool : Pool where
  connQ := []
  live := []
  aliveTime _ := 0
  connected _ := false
  held := []
  clock := 0
  producerWaits := false
  clientWaits := 0

/-- The constructor's loop, one `addConn` for each answer. -/
def fill : List NewConn → Pool → Option Pool
  | [], p => some p
  | c :: cs, p => if c.Fresh p then fill cs (addConn p c) else none

/-- The constructor has finished: `m_minSize` calls of `addConn` were made. -/
def Constructed (cfg : Config) (p : Pool) : Prop :=
  ∃ cs, cs.length = cfg.minSize ∧ fill cs emptyPool = some p

end ConnPool
end LinuxCppLearn
