import LinuxCppLearn.ConnPool.MysqlConn

/-!
# Reading the rows of a result

The calls of one `MysqlConn` in any order, with any answers of the server.
`next` looks whether there is a result; `value` does not, and trusts `m_row`.
Beside the members stands the row that the client believes it is at.

* `value_right_iff` — what `value` needs to return the right thing.
* `value_right_exactly` — the same along every run.
-/

namespace LinuxCppLearn
namespace ConnPool

open StepSystem

/-- Every row has a field for each column. -/
def MysqlRes.WellFormed (res : MysqlRes) : Prop :=
  ∀ fields ∈ res.rows, fields.length = res.numFields

instance (res : MysqlRes) : Decidable res.WellFormed :=
  inferInstanceAs (Decidable (∀ fields ∈ res.rows, _))

/-- A call, with what the `mysql_` functions answer. -/
inductive CursorCall
  | update (ok : Bool)
  /-- whether `mysql_query` worked, and what `mysql_store_result` returned -/
  | query (ok : Bool) (stored : Option MysqlRes)
  | next
  | value (index : Int)
deriving DecidableEq, Repr

/-- What a call does to `m_result` and `m_row`. -/
def Cursor.apply (c : Cursor) : CursorCall → Cursor
  | .update _ | .value _ => c
  | .query ok stored => if ok then c.store stored else c.freeResult
  | .next => c.next.2

/-- The row of the last `next` that returned true, if no `query` came since. -/
abbrev CurrentRow := Option (List Field)

def CurrentRow.after (c : Cursor) (current : CurrentRow) : CursorCall → CurrentRow
  | .update _ | .value _ => current
  | .query _ _ => none
  | .next =>
      match c.next with
      | (true, c') =>
          match c'.row with
          | .row fields => some fields
          | .null | .dangling => none
      | (false, _) => current

/-- What `value` should return: the bytes of a field of that row, and nothing in
every other case. -/
def CurrentRow.value (current : CurrentRow) (index : Int) : String :=
  if index < 0 then ""
  else ((current.getD [])[index.toNat]?.getD none).getD ""

/-- A stored result is well-formed; a call of `value` that reads through a bad
pointer is followed as if it had returned. -/
def rowStep (s : Cursor × CurrentRow) (call : CursorCall) : Option (Cursor × CurrentRow) :=
  match call with
  | .query _ (some res) =>
      if res.WellFormed then some (s.1.apply call, CurrentRow.after s.1 s.2 call) else none
  | _ => some (s.1.apply call, CurrentRow.after s.1 s.2 call)

/-- `value` returns what it should. -/
def ValueRight (s : Cursor × CurrentRow) : CursorCall → Prop
  | .value index => s.1.value index = some (s.2.value index)
  | _ => True

instance (s : Cursor × CurrentRow) (call : CursorCall) : Decidable (ValueRight s call) := by
  cases call <;> unfold ValueRight <;> infer_instance

/-- There is a result, and a row, unless the index is out of range. -/
def Readable (c : Cursor) : CursorCall → Prop
  | .value index =>
      ∃ res, c.result = some res ∧ (index < 0 ∨ (res.numFields : Int) ≤ index ∨ c.row.Live)
  | _ => True

/-! ## The calls of the model -/

section Calls

variable {D T : Type*} {srv : Server D T} {w w' : World D T} {r : Returned}

/-- What the `mysql_` functions answer to a call of the model. -/
def World.cursorCall (srv : Server D T) (w : World D T) : Call → CursorCall
  | .query sql =>
      let (ok, w) := w.freeResult.mysqlQuery srv sql
      .query ok w.conn.mysql.unread
  | .next => .next
  | .value index => .value index
  | .update _ | .transaction | .commit | .rollback => .update true

@[simp] theorem World.command_cursor (run : D → Session T → Bool × D × Session T) :
    (w.command run).2.conn.cursor = w.conn.cursor := by
  unfold World.command
  split <;> rfl

@[simp] theorem World.mysqlQuery_cursor (sql : String) :
    (w.mysqlQuery srv sql).2.conn.cursor = w.conn.cursor := by
  unfold World.mysqlQuery
  split <;> rfl

@[simp] theorem Cursor.freeResult_freeResult (c : Cursor) :
    c.freeResult.freeResult = c.freeResult := by
  unfold Cursor.freeResult
  cases hResult : c.result <;> simp [hResult]

theorem Cursor.store_freeResult (c : Cursor) (res : Option MysqlRes) :
    c.freeResult.store res = c.store res := by
  simp [Cursor.store]

/-- A call that only sends a command. -/
theorem World.sent_cursor (run : D → Session T → Bool × D × Session T)
    (h : (let (ok, v) := w.command run; (Returned.bool !ok, v)) = (r, w')) :
    w'.conn.cursor = w.conn.cursor := by
  have hCursor := World.command_cursor (w := w) run
  cases hRun : w.command run with
  | mk ok v =>
      rw [hRun] at h hCursor
      obtain ⟨-, rfl⟩ := Prod.mk.inj h
      exact hCursor

/-- A call of the model does to the members what its `CursorCall` does. -/
theorem World.call_cursor {c : Call} (h : w.call srv c = some (r, w')) :
    w'.conn.cursor = w.conn.cursor.apply (w.cursorCall srv c) := by
  cases c with
  | update sql =>
      obtain ⟨-, rfl⟩ := Prod.mk.inj (Option.some.inj h)
      exact World.mysqlQuery_cursor sql
  | query sql =>
      have hFree : (w.freeResult.mysqlQuery srv sql).2.conn.cursor = w.conn.cursor.freeResult :=
        World.mysqlQuery_cursor sql
      have hQuery : w.query srv sql = (r, w') := Option.some.inj h
      unfold World.query at hQuery
      simp only [World.cursorCall]
      cases hRun : w.freeResult.mysqlQuery srv sql with
      | mk ok v =>
          rw [hRun] at hFree hQuery
          cases ok with
          | false =>
              obtain ⟨-, rfl⟩ := Prod.mk.inj hQuery
              exact hFree
          | true =>
              obtain ⟨-, rfl⟩ := Prod.mk.inj hQuery
              exact (congrArg (Cursor.store · _) hFree).trans (Cursor.store_freeResult _ _)
  | next =>
      obtain ⟨-, rfl⟩ := Prod.mk.inj (Option.some.inj h)
      rfl
  | value index =>
      obtain ⟨s, -, hEq⟩ := Option.map_eq_some_iff.mp h
      obtain ⟨-, rfl⟩ := Prod.mk.inj hEq
      rfl
  | transaction =>
      exact World.sent_cursor (fun contents session =>
        (true, contents, { session with autocommit := false })) (Option.some.inj h)
  | commit => exact World.sent_cursor srv.commit (Option.some.inj h)
  | rollback => exact World.sent_cursor srv.rollback (Option.some.inj h)

end Calls

/-! ## The members and the current row -/

section Rows

variable {c : Cursor} {current : CurrentRow} {s s' : Cursor × CurrentRow} {call : CursorCall}

/-- The pointers and the row that the client believes in. -/
structure RowInv (c : Cursor) (current : CurrentRow) : Prop where
  wellFormed : ∀ res, c.result = some res → res.WellFormed
  /-- a row that can be read is the current one -/
  live : ∀ fields, c.row = .row fields → current = some fields
  /-- the current row is from the stored result -/
  columns : ∀ fields, current = some fields →
    ∃ res, c.result = some res ∧ fields.length = res.numFields

theorem rowInv_new : RowInv .new none where
  wellFormed res h := by simp [Cursor.new] at h
  live fields h := by simp [Cursor.new] at h
  columns fields h := by simp at h

theorem rowInv_query {stored : Option MysqlRes} (ok : Bool)
    (hStored : ∀ res, stored = some res → res.WellFormed) :
    RowInv (c.apply (.query ok stored)) none := by
  have hDead : ∀ fields, c.freeResult.row ≠ .row fields := fun fields hRow =>
    c.not_live_freeResult (hRow ▸ trivial)
  have hFree : c.freeResult.result = none := by
    unfold Cursor.freeResult
    split
    · assumption
    · rfl
  cases ok with
  | false => exact ⟨by simp [Cursor.apply, hFree], fun fields hRow => absurd hRow (hDead fields),
      nofun⟩
  | true => exact ⟨hStored, fun fields hRow => absurd hRow (hDead fields), nofun⟩

theorem rowInv_next (h : RowInv c current) :
    RowInv (c.apply .next) (CurrentRow.after c current .next) := by
  unfold Cursor.apply CurrentRow.after Cursor.next
  cases hResult : c.result with
  | none => simpa using h
  | some res =>
      have hRes := h.wellFormed res hResult
      cases hRows : res.rows with
      | nil =>
          simp only [hRows]
          refine ⟨?_, nofun, fun fields hCurrent => ?_⟩
          · rintro _ ⟨⟩
            exact hRes
          · obtain ⟨res', hResult', hLength⟩ := h.columns fields hCurrent
            rw [hResult] at hResult'
            obtain rfl := Option.some.inj hResult'
            exact ⟨res, rfl, hLength⟩
      | cons fields rows =>
          simp only [hRows]
          unfold MysqlRes.WellFormed at hRes
          rw [hRows] at hRes
          refine ⟨?_, ?_, ?_⟩
          · rintro _ ⟨⟩
            exact fun other hMem => hRes other (List.mem_cons_of_mem _ hMem)
          · rintro _ ⟨⟩
            rfl
          · rintro _ ⟨⟩
            exact ⟨_, rfl, hRes fields List.mem_cons_self⟩

theorem rowInv_step (h : RowInv s.1 s.2) (hStep : rowStep s call = some s') :
    RowInv s'.1 s'.2 := by
  cases call with
  | update ok =>
      obtain rfl := Option.some.inj hStep
      exact h
  | query ok stored =>
      cases stored with
      | none =>
          obtain rfl := Option.some.inj hStep
          exact rowInv_query ok nofun
      | some res =>
          simp only [rowStep] at hStep
          split at hStep
          · rename_i hRes
            obtain rfl := Option.some.inj hStep
            refine rowInv_query ok ?_
            rintro _ ⟨⟩
            exact hRes
          · simp at hStep
  | next =>
      obtain rfl := Option.some.inj hStep
      exact rowInv_next h
  | value index =>
      obtain rfl := Option.some.inj hStep
      exact h

/-- Out of range there is nothing. -/
theorem RowInv.value_out_of_range {res : MysqlRes} {index : Int} (h : RowInv c current)
    (hResult : c.result = some res) (hIndex : (res.numFields : Int) ≤ index ∨ index < 0) :
    CurrentRow.value current index = "" := by
  unfold CurrentRow.value
  split
  · rfl
  · rename_i hNonneg
    have hBeyond : (res.numFields : Int) ≤ index := hIndex.resolve_right hNonneg
    cases current with
    | none => rfl
    | some fields =>
        obtain ⟨res', hResult', hLength⟩ := h.columns fields rfl
        rw [hResult] at hResult'
        obtain rfl := Option.some.inj hResult'
        have hNone : fields[index.toNat]? = none := List.getElem?_eq_none (by omega)
        simp [hNone]

/-- In range a row that can be read gives its field. -/
theorem RowInv.value_live {res : MysqlRes} {fields : List Field} {index : Int}
    (h : RowInv c current) (hResult : c.result = some res) (hRow : c.row = .row fields)
    (hRange : ¬ ((res.numFields : Int) ≤ index ∨ index < 0)) :
    c.row.field index.toNat = some (CurrentRow.value current index) := by
  obtain rfl := h.live fields hRow
  obtain ⟨res', hResult', hLength⟩ := h.columns fields rfl
  rw [hResult] at hResult'
  obtain rfl := Option.some.inj hResult'
  have hLt : index.toNat < fields.length := by omega
  have hNonneg : ¬ index < 0 := fun hNeg => hRange (.inr hNeg)
  simp [hRow, MysqlRow.field, CurrentRow.value, hNonneg, hLt]

/-- **What `value` needs** to return the right thing: a result, and a row unless
the index is out of range. -/
theorem value_right_iff (h : RowInv s.1 s.2) : ValueRight s call ↔ Readable s.1 call := by
  cases call with
  | update | query | next => exact Iff.rfl
  | value index =>
      unfold ValueRight Readable Cursor.value
      cases hResult : s.1.result with
      | none => simp
      | some res =>
          simp only [Option.some.injEq, exists_eq_left']
          split
          · rename_i hRange
            rw [h.value_out_of_range hResult hRange]
            exact iff_of_true rfl (hRange.symm.imp_right Or.inl)
          · rename_i hRange
            cases hRow : s.1.row with
            | null | dangling =>
                refine iff_of_false (by simp [MysqlRow.field]) ?_
                rintro (hNeg | hBeyond | hLive)
                · exact hRange (.inr hNeg)
                · exact hRange (.inl hBeyond)
                · exact hLive
            | row fields =>
                rw [← hRow, h.value_live hResult hRow hRange]
                exact iff_of_true rfl (.inr (.inr (hRow ▸ trivial)))

end Rows

/-- **`value` returns the field of the current row** throughout a run exactly if
it is only called where there is a result, and a row that is not freed unless
the index is out of range. -/
theorem value_right_exactly (calls : List CursorCall) :
    AlongRun rowStep (fun s call _ => ValueRight s call) (.new, none) calls ↔
      AlongRun rowStep (fun s call _ => Readable s.1 call) (.new, none) calls := by
  have hStep : ∀ s call s', RowInv s.1 s.2 → rowStep s call = some s' →
      (ValueRight s call ↔ Readable s.1 call) ∧ (Readable s.1 call → RowInv s'.1 s'.2) :=
    fun s call s' hInv hStep => ⟨value_right_iff hInv, fun _ => rowInv_step hInv hStep⟩
  exact alongRun_iff hStep rowInv_new

/-- A result with one row and one column. -/
def oneRow : MysqlRes := ⟨1, [[some "a"]]⟩

/-- `value` before any query, behind the last row, and behind a new query reads
through a null result, a null row and a freed row. -/
theorem value_reads_bad_pointers :
    Cursor.new.value 0 = none ∧
    (∃ s, Reachable rowStep (.new, none) s ∧ s.1.row = .null ∧ s.1.value 0 = none ∧
      s.2.value 0 = "a" ∧ ¬ ValueRight s (.value 0)) ∧
    ∃ s, Reachable rowStep (.new, none) s ∧ s.1.row = .dangling ∧ s.1.value 0 = none ∧
      s.2.value 0 = "" ∧ ¬ ValueRight s (.value 0) := by
  have hBehind : (run rowStep (.new, none) [.query true (some oneRow), .next, .next]).map
      (fun s => decide (s.1.row = .null ∧ s.1.value 0 = none ∧ s.2.value 0 = "a" ∧
        ¬ ValueRight s (.value 0))) = some true := by decide
  have hAgain : (run rowStep (.new, none)
      [.query true (some oneRow), .next, .query true (some oneRow)]).map
      (fun s => decide (s.1.row = .dangling ∧ s.1.value 0 = none ∧ s.2.value 0 = "" ∧
        ¬ ValueRight s (.value 0))) = some true := by decide
  obtain ⟨s, hReach, hTest⟩ := exists_reachable_of_run hBehind
  obtain ⟨s', hReach', hTest'⟩ := exists_reachable_of_run hAgain
  exact ⟨rfl, ⟨s, hReach, of_decide_eq_true hTest⟩, ⟨s', hReach', of_decide_eq_true hTest'⟩⟩

end ConnPool
end LinuxCppLearn
