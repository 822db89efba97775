import LinuxCppLearn.Library.StepSystem
import LinuxCppLearn.Library.Unwinding
import LinuxCppLearn.ConnPool.Model

/-!
# A pooled connection and its calls

`MysqlConn` wraps one session with the server.  The server is a parameter: what
a statement answers, and what it does to the contents and to the session, is
`Server.exec`.  The contents `D` are what every session sees; the uncommitted
work `T` of a transaction stays in the session.

A call that reads through a null or freed pointer has no result (`none`).
-/

namespace LinuxCppLearn
namespace ConnPool

open StepSystem

/-- A field of a row; `none` is SQL `NULL`. -/
abbrev Field := Option String

/-- `MYSQL_RES`, a stored result set. -/
structure MysqlRes where
  numFields : Nat
  /-- the rows that `mysql_fetch_row` has not given yet -/
  rows : List (List Field)
deriving DecidableEq, Repr

/-- `MYSQL_ROW m_row`. -/
inductive MysqlRow
  | null
  /-- points into a result that was freed -/
  | dangling
  | row (fields : List Field)
deriving DecidableEq, Repr

/-- Reading through the pointer gives something. -/
def MysqlRow.Live : MysqlRow → Prop
  | .row _ => True
  | _ => False

/-- `mysql_free_result` took the rows with it. -/
def MysqlRow.freed : MysqlRow → MysqlRow
  | .row _ => .dangling
  | r => r

@[simp] theorem MysqlRow.not_live_freed (r : MysqlRow) : ¬ r.freed.Live := by
  cases r <;> exact id

/-- `string(m_row[i], mysql_fetch_lengths(m_result)[i])`; a `NULL` field has
length 0. -/
def MysqlRow.field : MysqlRow → Nat → Option String
  | .row fields, i => fields[i]?.map fun field => field.getD ""
  | _, _ => none

theorem MysqlRow.field_of_not_live {r : MysqlRow} (h : ¬ r.Live) (i : Nat) :
    r.field i = none := by
  cases r with
  | row fields => exact absurd trivial h
  | null => rfl
  | dangling => rfl

/-- `m_result` and `m_row`: a row is live only together with its result. -/
structure Cursor where
  result : Option MysqlRes
  row : MysqlRow
  stale : result = none → ¬ row.Live

/-- The members behind the constructor. -/
def Cursor.new : Cursor where
  result := none
  row := .null
  stale _ := id

/-- `freeResult`. -/
def Cursor.freeResult (c : Cursor) : Cursor :=
  match c.result with
  | none => c
  | some _ => ⟨none, c.row.freed, fun _ => c.row.not_live_freed⟩

theorem Cursor.not_live_freeResult (c : Cursor) : ¬ c.freeResult.row.Live := by
  unfold Cursor.freeResult
  split
  · rename_i hNone
    exact c.stale hNone
  · exact c.row.not_live_freed

/-- `m_result = mysql_store_result(m_conn);` behind `freeResult()`. -/
def Cursor.store (c : Cursor) (res : Option MysqlRes) : Cursor :=
  ⟨res, c.freeResult.row, fun _ => c.not_live_freeResult⟩

/-- `next`, with the value it returns. -/
def Cursor.next (c : Cursor) : Bool × Cursor :=
  match c.result with
  | none => (false, c)
  | some res =>
      match res.rows with
      | [] => (false, ⟨some res, .null, fun _ => id⟩)
      | fields :: rows =>
          (true, ⟨some { res with rows := rows }, .row fields, fun h => by simp at h⟩)

/-- `value`. -/
def Cursor.value (c : Cursor) (index : Int) : Option String :=
  match c.result with
  -- `mysql_num_fields(nullptr)`
  | none => none
  | some res =>
      if (res.numFields : Int) ≤ index ∨ index < 0 then some ""
      else c.row.field index.toNat

/-- What a session keeps on the server. -/
structure Session (T : Type*) where
  autocommit : Bool
  /-- the work of the open transaction, if there is one -/
  txn : Option T
deriving DecidableEq, Repr

/-- A session as the server opens it. -/
def Session.opened {T : Type*} : Session T := ⟨true, none⟩

/-- What a statement answers. -/
inductive Answer
  | error
  | done (result : Option MysqlRes)
deriving DecidableEq, Repr

def Answer.ok : Answer → Bool
  | .error => false
  | .done _ => true

def Answer.result : Answer → Option MysqlRes
  | .error => none
  | .done result => result

/-- The server, as one session meets it. -/
structure Server (D T : Type*) where
  exec : D → Session T → String → Answer × D × Session T
  commit : D → Session T → Bool × D × Session T
  rollback : D → Session T → Bool × D × Session T

/-- `MYSQL`, the client's end of a session. -/
@[ext] structure Mysql (T : Type*) where
  /-- what `mysql_real_connect` returned -/
  connected : Bool
  session : Session T
  /-- a result that the server has sent and nobody has stored -/
  unread : Option MysqlRes

/-- Otherwise every command fails: not connected, or out of sync. -/
def Mysql.ready {T : Type*} (m : Mysql T) : Bool := m.connected && m.unread.isNone

structure MysqlConn (T : Type*) where
  mysql : Mysql T
  cursor : Cursor
  aliveTime : Time

/-- `new MysqlConn` and `connect`. -/
def MysqlConn.new (T : Type*) (connectOk : Bool) (now : Time) : MysqlConn T where
  mysql := ⟨connectOk, .opened, none⟩
  cursor := .new
  aliveTime := now

def MysqlConn.refreshAliveTime {T : Type*} (conn : MysqlConn T) (now : Time) : MysqlConn T :=
  { conn with aliveTime := now }

/-- A connection and the contents that all sessions see. -/
structure World (D T : Type*) where
  contents : D
  conn : MysqlConn T

variable {D T : Type*}

/-- A command that the client sends, with its return value (`true` if it
worked); an unusable session answers nothing. -/
def World.command (w : World D T) (run : D → Session T → Bool × D × Session T) :
    Bool × World D T :=
  if w.conn.mysql.ready then
    let (ok, contents, session) := run w.contents w.conn.mysql.session
    (ok, ⟨contents, { w.conn with mysql := { w.conn.mysql with session := session } }⟩)
  else (false, w)

/-- `mysql_query`; the result of the statement waits to be stored. -/
def World.mysqlQuery (srv : Server D T) (w : World D T) (sql : String) : Bool × World D T :=
  if w.conn.mysql.ready then
    let (answer, contents, session) := srv.exec w.contents w.conn.mysql.session sql
    (answer.ok, ⟨contents, { w.conn with
      mysql := { w.conn.mysql with session := session, unread := answer.result } }⟩)
  else (false, w)

/-- `mysql_store_result`, into `m_result`. -/
def World.storeResult (w : World D T) : World D T :=
  { w with conn := { w.conn with
    mysql := { w.conn.mysql with unread := none }
    cursor := w.conn.cursor.store w.conn.mysql.unread } }

def World.freeResult (w : World D T) : World D T :=
  { w with conn := { w.conn with cursor := w.conn.cursor.freeResult } }

/-- What a call returns.  An update also shows whether its work is committed
when it returns. -/
inductive Returned
  | updated (ok committed : Bool)
  | bool (b : Bool)
  | string (s : String)
deriving DecidableEq, Repr

def World.update (srv : Server D T) (w : World D T) (sql : String) : Returned × World D T :=
  let (ok, w) := w.mysqlQuery srv sql
  (.updated ok (ok && w.conn.mysql.session.txn.isNone), w)

/-- `query`: the old result is freed whatever becomes of the new statement. -/
def World.query (srv : Server D T) (w : World D T) (sql : String) : Returned × World D T :=
  let (ok, w) := w.freeResult.mysqlQuery srv sql
  if ok then (.bool true, w.storeResult) else (.bool false, w)

def World.next (w : World D T) : Returned × World D T :=
  let (found, cursor) := w.conn.cursor.next
  (.bool found, { w with conn := { w.conn with cursor := cursor } })

/-- `mysql_autocommit(m_conn, false)`; the `mysql_` functions return 0, which is
`false`, when they worked. -/
def World.transaction (w : World D T) : Returned × World D T :=
  let (ok, w) := w.command fun contents session =>
    (true, contents, { session with autocommit := false })
  (.bool !ok, w)

def World.commit (srv : Server D T) (w : World D T) : Returned × World D T :=
  let (ok, w) := w.command srv.commit
  (.bool !ok, w)

def World.rollback (srv : Server D T) (w : World D T) : Returned × World D T :=
  let (ok, w) := w.command srv.rollback
  (.bool !ok, w)

inductive Call
  | update (sql : String)
  | query (sql : String)
  | next
  | value (index : Int)
  | transaction
  | commit
  | rollback
deriving DecidableEq, Repr

/-- One call on the connection: what it returns, and the world behind it. -/
def World.call (srv : Server D T) (w : World D T) : Call → Option (Returned × World D T)
  | .update sql => some (w.update srv sql)
  | .query sql => some (w.query srv sql)
  | .next => some w.next
  | .value index => (w.conn.cursor.value index).map fun s => (.string s, w)
  | .transaction => some w.transaction
  | .commit => some (w.commit srv)
  | .rollback => some (w.rollback srv)

/-- A call that returns. -/
def World.step (srv : Server D T) (w : World D T) (c : Call) : Option (World D T) :=
  (w.call srv c).map Prod.snd

/-- The calls of one client between `getConn` and the last handle, and the
custom deleter of `getConn`, which only calls `refreshAliveTime`. -/
def borrow (srv : Server D T) (calls : List Call) (now : Time) (w : World D T) :
    Option (World D T) :=
  (run (World.step srv) w calls).map fun w =>
    { w with conn := w.conn.refreshAliveTime now }

/-- Everything the calls of a client return, up to one that reads through a bad
pointer. -/
abbrev observe (srv : Server D T) (w : World D T) (calls : List Call) : List (Option Returned) :=
  Unwinding.observe (World.call srv) w calls

end ConnPool
end LinuxCppLearn
