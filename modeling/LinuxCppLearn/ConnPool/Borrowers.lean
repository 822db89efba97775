import LinuxCppLearn.ConnPool.MysqlConn

/-!
# What the next borrower of a connection sees

The deleter of `getConn` refreshes the alive time and queues the connection;
the session and the members of `MysqlConn` stay as the client left them.

* `World.Same` — two worlds that differ in alive time and in dead rows at most;
  every call answers alike in both.
* `MysqlConn.Clean` — autocommit on, no open transaction, nothing unread, no
  stored result.
* `borrowers_isolated_exactly` — a borrow is hidden from the next client exactly
  when it leaves the connection clean.
-/

namespace LinuxCppLearn
namespace ConnPool

open StepSystem Unwinding

variable {D T : Type*}

/-- The same result; the same row too, unless neither can be read. -/
structure Cursor.Same (c c' : Cursor) : Prop where
  result : c.result = c'.result
  row : c.row = c'.row ∨ ¬ c.row.Live ∧ ¬ c'.row.Live

/-- No call can tell the two worlds apart. -/
structure World.Same (w w' : World D T) : Prop where
  contents : w.contents = w'.contents
  mysql : w.conn.mysql = w'.conn.mysql
  cursor : w.conn.cursor.Same w'.conn.cursor

theorem Cursor.Same.freeResult {c c' : Cursor} (h : c.Same c') :
    c.freeResult.Same c'.freeResult where
  result := by
    unfold Cursor.freeResult
    rw [← h.result]
    cases hResult : c.result with
    | none => simp [hResult, h.result ▸ hResult]
    | some res => simp
  row := .inr ⟨c.not_live_freeResult, c'.not_live_freeResult⟩

theorem Cursor.Same.store {c c' : Cursor} (h : c.Same c') (res : Option MysqlRes) :
    (c.store res).Same (c'.store res) where
  result := rfl
  row := h.freeResult.row

theorem Cursor.Same.next {c c' : Cursor} (h : c.Same c') :
    c.next.1 = c'.next.1 ∧ c.next.2.Same c'.next.2 := by
  unfold Cursor.next
  rw [← h.result]
  cases hResult : c.result with
  | none => exact ⟨rfl, h⟩
  | some res =>
      cases hRows : res.rows with
      | nil => simpa [hRows] using Cursor.Same.mk rfl (.inl rfl)
      | cons fields rows => simpa [hRows] using Cursor.Same.mk rfl (.inl rfl)

theorem Cursor.Same.value {c c' : Cursor} (h : c.Same c') (index : Int) :
    c.value index = c'.value index := by
  have hField : c.row.field index.toNat = c'.row.field index.toNat := by
    rcases h.row with hRow | ⟨hDead, hDead'⟩
    · rw [hRow]
    · rw [MysqlRow.field_of_not_live hDead, MysqlRow.field_of_not_live hDead']
  unfold Cursor.value
  rw [h.result, hField]

section
variable {w w' : World D T}

theorem World.Same.command (h : w.Same w') (run : D → Session T → Bool × D × Session T) :
    (w.command run).1 = (w'.command run).1 ∧ (w.command run).2.Same (w'.command run).2 := by
  unfold World.command
  rw [h.mysql, h.contents]
  split
  · exact ⟨rfl, rfl, rfl, h.cursor⟩
  · exact ⟨rfl, h⟩

theorem World.Same.mysqlQuery (h : w.Same w') (srv : Server D T) (sql : String) :
    (w.mysqlQuery srv sql).1 = (w'.mysqlQuery srv sql).1 ∧
      (w.mysqlQuery srv sql).2.Same (w'.mysqlQuery srv sql).2 := by
  unfold World.mysqlQuery
  rw [h.mysql, h.contents]
  split
  · exact ⟨rfl, rfl, rfl, h.cursor⟩
  · exact ⟨rfl, h⟩

theorem World.Same.storeResult (h : w.Same w') : w.storeResult.Same w'.storeResult where
  contents := h.contents
  mysql := by
    unfold World.storeResult
    rw [h.mysql]
  cursor := by
    unfold World.storeResult
    rw [h.mysql]
    exact h.cursor.store _

theorem World.Same.freeResult (h : w.Same w') : w.freeResult.Same w'.freeResult where
  contents := h.contents
  mysql := h.mysql
  cursor := h.cursor.freeResult

/-- **Every call answers alike in worlds that are the same**, and leaves them
the same. -/
theorem World.Same.call (h : w.Same w') (srv : Server D T) (c : Call) :
    Alike World.Same (w.call srv c) (w'.call srv c) := by
  cases c with
  | update sql =>
      obtain ⟨hOk, hSame⟩ := h.mysqlQuery srv sql
      unfold World.call World.update
      simp only [hOk, hSame.mysql]
      exact .returned _ hSame
  | query sql =>
      obtain ⟨hOk, hSame⟩ := h.freeResult.mysqlQuery srv sql
      unfold World.call World.query
      simp only [hOk]
      split
      · exact .returned _ hSame.storeResult
      · exact .returned _ hSame
  | next =>
      obtain ⟨hFound, hCursor⟩ := h.cursor.next
      unfold World.call World.next
      simp only [hFound]
      exact .returned _ ⟨h.contents, h.mysql, hCursor⟩
  | value index =>
      simp only [World.call, h.cursor.value]
      cases w'.conn.cursor.value index with
      | none => exact .broken
      | some s => exact .returned _ h
  | transaction =>
      obtain ⟨hOk, hSame⟩ := h.command fun contents session =>
        (true, contents, { session with autocommit := false })
      unfold World.call World.transaction
      simp only [hOk]
      exact .returned _ hSame
  | commit =>
      obtain ⟨hOk, hSame⟩ := h.command srv.commit
      unfold World.call World.commit
      simp only [hOk]
      exact .returned _ hSame
  | rollback =>
      obtain ⟨hOk, hSame⟩ := h.command srv.rollback
      unfold World.call World.rollback
      simp only [hOk]
      exact .returned _ hSame

theorem World.Same.observe (h : w.Same w') (srv : Server D T) (calls : List Call) :
    ConnPool.observe srv w calls = ConnPool.observe srv w' calls :=
  observe_eq (fun _ _ c hSame => hSame.call srv c) h calls

end

/-- The connection as a client should hand it back. -/
structure MysqlConn.Clean (conn : MysqlConn T) : Prop where
  session : conn.mysql.session = .opened
  unread : conn.mysql.unread = none
  result : conn.cursor.result = none

theorem MysqlConn.clean_new (connectOk : Bool) (now : Time) :
    (MysqlConn.new T connectOk now).Clean := ⟨rfl, rfl, rfl⟩

/-- Clean connections of one kind differ in nothing that a call reads. -/
theorem MysqlConn.Clean.same {w w' : World D T} (h : w.conn.Clean) (h' : w'.conn.Clean)
    (hConnected : w.conn.mysql.connected = w'.conn.mysql.connected)
    (hContents : w.contents = w'.contents) : w.Same w' where
  contents := hContents
  mysql := by
    ext : 1
    · exact hConnected
    · exact h.session.trans h'.session.symm
    · exact h.unread.trans h'.unread.symm
  cursor := by
    refine ⟨h.result.trans h'.result.symm, .inr ⟨?_, ?_⟩⟩
    · exact w.conn.cursor.stale h.result
    · exact w'.conn.cursor.stale h'.result

/-- A session that never was connected does not change. -/
structure Mysql.Kept (m m' : Mysql T) : Prop where
  connected : m'.connected = m.connected
  idle : m.connected = false → m' = m

theorem Mysql.Kept.refl (m : Mysql T) : m.Kept m := ⟨rfl, fun _ => rfl⟩

theorem Mysql.Kept.trans {m m' m'' : Mysql T} (h : m.Kept m') (h' : m'.Kept m'') :
    m.Kept m'' where
  connected := h'.connected.trans h.connected
  idle hIdle := by rw [h'.idle (h.connected.trans hIdle), h.idle hIdle]

theorem Mysql.connected_of_ready {m : Mysql T} (h : m.ready = true) : m.connected = true := by
  unfold Mysql.ready at h
  rw [Bool.and_eq_true] at h
  exact h.1

/-- What a usable session does to itself. -/
theorem Mysql.Kept.of_ready {m m' : Mysql T} (h : m.ready = true)
    (hConnected : m'.connected = m.connected) : m.Kept m' where
  connected := hConnected
  idle hIdle := by simp [Mysql.connected_of_ready h] at hIdle

theorem World.command_kept (w : World D T) (run : D → Session T → Bool × D × Session T) :
    w.conn.mysql.Kept (w.command run).2.conn.mysql := by
  unfold World.command
  split
  · rename_i hReady
    exact .of_ready hReady rfl
  · exact .refl _

theorem World.mysqlQuery_kept (srv : Server D T) (w : World D T) (sql : String) :
    w.conn.mysql.Kept (w.mysqlQuery srv sql).2.conn.mysql := by
  unfold World.mysqlQuery
  split
  · rename_i hReady
    exact .of_ready hReady rfl
  · exact .refl _

/-- Only a usable session answers a statement. -/
theorem World.ready_of_mysqlQuery {srv : Server D T} {w : World D T} {sql : String}
    (h : (w.mysqlQuery srv sql).1 = true) : w.conn.mysql.ready = true := by
  unfold World.mysqlQuery at h
  split at h
  · assumption
  · simp at h

@[simp] theorem World.mysql_freeResult (w : World D T) :
    w.freeResult.conn.mysql = w.conn.mysql := rfl

theorem World.query_kept (srv : Server D T) (w : World D T) (sql : String) :
    w.conn.mysql.Kept (w.query srv sql).2.conn.mysql := by
  have hKept := World.mysqlQuery_kept srv w.freeResult sql
  rw [World.mysql_freeResult] at hKept
  unfold World.query
  cases hOk : (w.freeResult.mysqlQuery srv sql).1 with
  | false => simpa [hOk] using hKept
  | true =>
      have hReady := World.ready_of_mysqlQuery hOk
      simp only [hOk, if_true]
      exact .of_ready hReady hKept.connected

theorem World.step_kept {srv : Server D T} {w w' : World D T} {c : Call}
    (h : w.step srv c = some w') : w.conn.mysql.Kept w'.conn.mysql := by
  unfold World.step at h
  rw [Option.map_eq_some_iff] at h
  obtain ⟨⟨returned, w''⟩, hCall, rfl⟩ := h
  cases c with
  | update sql =>
      obtain rfl := congrArg Prod.snd (Option.some.inj hCall)
      exact World.mysqlQuery_kept srv w sql
  | query sql =>
      obtain rfl := congrArg Prod.snd (Option.some.inj hCall)
      exact World.query_kept srv w sql
  | next =>
      obtain rfl := congrArg Prod.snd (Option.some.inj hCall)
      exact .refl _
  | value index =>
      simp only [World.call, Option.map_eq_some_iff, Prod.mk.injEq] at hCall
      obtain ⟨_, _, _, rfl⟩ := hCall
      exact .refl _
  | transaction =>
      obtain rfl := congrArg Prod.snd (Option.some.inj hCall)
      unfold World.transaction
      exact World.command_kept w _
  | commit =>
      obtain rfl := congrArg Prod.snd (Option.some.inj hCall)
      exact World.command_kept w _
  | rollback =>
      obtain rfl := congrArg Prod.snd (Option.some.inj hCall)
      exact World.command_kept w _

theorem borrow_kept {srv : Server D T} {calls : List Call} {now : Time} {w w' : World D T}
    (h : borrow srv calls now w = some w') : w.conn.mysql.Kept w'.conn.mysql := by
  unfold borrow at h
  rw [Option.map_eq_some_iff] at h
  obtain ⟨w'', hRun, rfl⟩ := h
  have hReach := reachable_of_run hRun
  refine hReach.invariant (P := fun v => w.conn.mysql.Kept v.conn.mysql) (.refl _) ?_
  intro v c v' hKept _ hStep
  exact hKept.trans (World.step_kept hStep)

/-- A statement which commits at once in a session as it was opened; in any
other session its work stays in the transaction, or it fails. -/
structure Server.Plain (srv : Server D T) (contents : D) (sql : String) : Prop where
  commits : (srv.exec contents .opened sql).1.ok = true ∧
    (srv.exec contents .opened sql).2.2.txn = none
  waits : ∀ session, session ≠ .opened → (srv.exec contents session sql).1.ok = false ∨
    (srv.exec contents session sql).2.2.txn ≠ none

section
variable {srv : Server D T} {w w' : World D T} {sql : String}

/-- **A plain update tells the state of the session**: it works and is committed
when it returns exactly if the session is usable and as it was opened. -/
theorem World.update_plain_iff (h : srv.Plain w.contents sql) :
    (w.update srv sql).1 = .updated true true ↔
      w.conn.mysql.ready = true ∧ w.conn.mysql.session = .opened := by
  unfold World.update World.mysqlQuery
  by_cases hReady : w.conn.mysql.ready = true
  · simp only [hReady, if_true, Returned.updated.injEq, Bool.and_eq_true, true_and,
      Option.isNone_iff_eq_none]
    constructor
    · rintro ⟨hOk, _, hNone⟩
      by_contra hOpened
      rcases h.waits _ hOpened with hFails | hStays
      · simp [hFails] at hOk
      · exact hStays hNone
    · intro hOpened
      rw [hOpened]
      exact ⟨h.commits.1, h.commits⟩
  · simp [hReady]

theorem observe_value_of_none (h : w.conn.cursor.result = none) (index : Int) :
    observe srv w [.value index] = [none] := by
  refine observe_cons_none ?_ []
  simp [World.call, Cursor.value, h]

/-- A left result answers `value(-1)`. -/
theorem result_eq_none_of_observe (h : observe srv w [.value (-1)] = [none]) :
    w.conn.cursor.result = none := by
  by_contra hLeft
  obtain ⟨res, hRes⟩ := Option.ne_none_iff_exists'.mp hLeft
  have hCall : w.call srv (.value (-1)) = some (.string "", w) := by
    simp [World.call, Cursor.value, hRes]
  rw [observe, observe_cons_some hCall] at h
  simp at h

theorem observe_update (sql : String) :
    observe srv w [.update sql] = [some (w.update srv sql).1] := by
  have hCall : w.call srv (.update sql) = some ((w.update srv sql).1, (w.update srv sql).2) := rfl
  exact observe_cons_some hCall []

/-- What a clean connection answers to two calls only a clean one answers. -/
theorem MysqlConn.Clean.of_observe (hPlain : srv.Plain w.contents sql) (h' : w'.conn.Clean)
    (hConnected : w'.conn.mysql.connected = true) (hContents : w'.contents = w.contents)
    (hValue : observe srv w [.value (-1)] = observe srv w' [.value (-1)])
    (hUpdate : observe srv w [.update sql] = observe srv w' [.update sql]) : w.conn.Clean := by
  have hReady : w'.conn.mysql.ready = true := by
    simp [Mysql.ready, hConnected, h'.unread]
  have hTold : (w'.update srv sql).1 = .updated true true :=
    (World.update_plain_iff (hContents ▸ hPlain)).mpr ⟨hReady, h'.session⟩
  rw [observe_update, observe_update, hTold] at hUpdate
  obtain ⟨hUsable, hOpened⟩ :=
    (World.update_plain_iff hPlain).mp (Option.some.inj (List.cons.inj hUpdate).1)
  rw [observe_value_of_none h'.result] at hValue
  unfold Mysql.ready at hUsable
  rw [Bool.and_eq_true, Option.isNone_iff_eq_none] at hUsable
  exact ⟨hOpened, hUsable.2, result_eq_none_of_observe hValue⟩

end

/-- **A borrow is hidden from the next client exactly when it leaves the
connection clean.**  Two runs on one connection that both do so show the second
client the same, whatever the first one did; a run that does not is told apart
from all of those by some calls. -/
theorem borrowers_isolated_exactly {srv : Server D T}
    (hPlain : ∀ contents, ∃ sql, srv.Plain contents sql) {conn : MysqlConn T}
    (hStart : conn.Clean) {contents : D} {calls : List Call} {now : Time} {w : World D T}
    (hBorrow : borrow srv calls now ⟨contents, conn⟩ = some w) :
    (∀ contents' calls' now' w', borrow srv calls' now' ⟨contents', conn⟩ = some w' →
        w'.conn.Clean → w.contents = w'.contents →
        ∀ callsB, observe srv w callsB = observe srv w' callsB) ↔
      w.conn.Clean := by
  have hKept := borrow_kept hBorrow
  constructor
  · intro hHidden
    -- the run in which the first client makes no call at all
    let w₀ : World D T := ⟨w.contents, conn.refreshAliveTime now⟩
    have hClean₀ : w₀.conn.Clean := ⟨hStart.session, hStart.unread, hStart.result⟩
    have hEq := hHidden w.contents [] now w₀ rfl hClean₀ rfl
    obtain ⟨sql, hSql⟩ := hPlain w.contents
    cases hConnected : conn.mysql.connected with
    | true => exact .of_observe hSql hClean₀ hConnected rfl (hEq _) (hEq _)
    | false =>
        have hSame : w.conn.mysql = conn.mysql := hKept.idle hConnected
        have hValue := hEq [.value (-1)]
        rw [observe_value_of_none hClean₀.result] at hValue
        exact ⟨hSame ▸ hStart.session, hSame ▸ hStart.unread, result_eq_none_of_observe hValue⟩
  · intro hClean contents' calls' now' w' hBorrow' hClean' hContents callsB
    have hKept' := borrow_kept hBorrow'
    have hConnected : w.conn.mysql.connected = w'.conn.mysql.connected :=
      hKept.connected.trans hKept'.connected.symm
    exact (hClean.same hClean' hConnected hContents).observe srv callsB

/-- A server with one table of one column: `select` reads it, every other
statement adds itself as a row. -/
def oneTable : Server (List String) (List String) where
  exec contents session sql :=
    let seen := session.txn.getD contents
    if sql = "select" then (.done (some ⟨1, seen.map fun x => [some x]⟩), contents, session)
    else if session = .opened then (.done none, contents ++ [sql], session)
    else (.done none, contents, { session with txn := some (seen ++ [sql]) })
  commit contents session := (true, session.txn.getD contents, { session with txn := none })
  rollback contents session := (true, contents, { session with txn := none })

theorem oneTable_plain (contents : List String) : oneTable.Plain contents "row" where
  commits := by simp [oneTable, Session.opened, Answer.ok]
  waits session hOpened := .inr (by simp [oneTable, hOpened])

/-- The first client reads the table and frees the result with its next query. -/
theorem borrowers_isolated_exactly_tidyClient :
    ∃ w, borrow oneTable [.query "select", .next, .value 0, .query "row"] 5
        ⟨["a"], .new _ true 0⟩ = some w ∧
      ∀ contents' calls' now' w',
        borrow oneTable calls' now' ⟨contents', .new _ true 0⟩ = some w' →
          w'.conn.Clean → w.contents = w'.contents →
          ∀ callsB, observe oneTable w callsB = observe oneTable w' callsB := by
  have hBorrow : ∃ w, borrow oneTable [.query "select", .next, .value 0, .query "row"] 5
      ⟨["a"], .new _ true 0⟩ = some w ∧ w.conn.Clean :=
    ⟨_, rfl, rfl, rfl, rfl⟩
  obtain ⟨w, hBorrow, hClean⟩ := hBorrow
  have hPlain : ∀ contents, ∃ sql, oneTable.Plain contents sql :=
    fun contents => ⟨"row", oneTable_plain contents⟩
  exact ⟨w, hBorrow,
    (borrowers_isolated_exactly hPlain (MysqlConn.clean_new true 0) hBorrow).mpr hClean⟩

/-- Whatever the first clients of two runs do, the second client sees the same. -/
def BorrowersIsolated (srv : Server D T) (conn : MysqlConn T) : Prop :=
  ∀ contents calls now w contents' calls' now' w',
    borrow srv calls now ⟨contents, conn⟩ = some w →
    borrow srv calls' now' ⟨contents', conn⟩ = some w' →
    w.contents = w'.contents →
    ∀ callsB, observe srv w callsB = observe srv w' callsB

/-- The first client calls `transaction()` and drops its handle: the update of
the next one is not committed. -/
theorem transaction_outlives_borrow :
    ¬ BorrowersIsolated oneTable (MysqlConn.new (List String) true 0) := by
  intro hIsolated
  have hEq : [some (Returned.updated true false)] = [some (.updated true true)] :=
    hIsolated [] [.transaction] 5 _ [] [] 5 _ rfl rfl rfl [.update "row"]
  simp at hEq

end ConnPool
end LinuxCppLearn
