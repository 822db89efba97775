import LinuxCppLearn.Library.StepSystem
import LinuxCppLearn.DeadlockCheck.Interleaving

/-!
# The checker without the lock

`check_dead_lock` walks the adjacency lists without `tg->mutex`, while the hooks
of other threads take it and change them.  Here every read of a `next` pointer
and of a target is one step, with the call stack of `DFS` written out; a hook is
one step, too.

A `ver` points to a vertex or to a node of its list.  `remove_edge` frees the
node: what pointed to it dangles.  (No list holds a target twice, so a node is
named by its target.)  `moments` keeps the graph as it was at the start of the
check and behind every hook during it.
-/

namespace LinuxCppLearn
namespace DeadlockCheck
namespace ConcurrentCheck

open StepSystem TaskGraph

/-- A `struct vertex_t *` into the list of one vertex. -/
inductive NodePtr
  | null
  /-- the vertex itself, in `vertex_list` -/
  | head
  /-- the node of a target -/
  | node (target : Pair)
  /-- points to a freed node -/
  | dangling
deriving DecidableEq, Repr

/-- The pointer to the first of these nodes. -/
def NodePtr.first : List Pair → NodePtr
  | [] => .null
  | target :: _ => .node target

/-- `ver->next`; `none` when `ver` is null or dangles. -/
def NodePtr.next (list : List Pair) : NodePtr → Option NodePtr
  | .head => some (.first list)
  | .node target => some (.first (list.dropWhile (· ≠ target)).tail)
  | .null | .dangling => none

/-- The pointer behind a hook that leaves this list. -/
def NodePtr.after (list : List Pair) : NodePtr → NodePtr
  | .node target => if target ∈ list then .node target else .dangling
  | ptr => ptr

/-- Where a loop `while (ver->next != NULL)` is. -/
inductive LoopPc
  /-- about to read `ver->next` for the test -/
  | test
  /-- about to read `ver->next` for the argument of `DFS` -/
  | argument
  /-- has that pointer, about to read `->pair` -/
  | target (ptr : NodePtr)
  /-- `DFS` has returned, about to read `ver->next` for the next round -/
  | advance
deriving DecidableEq, Repr

/-- A call of `search_for_cycle` or of `DFS`. -/
structure Frame where
  idx : Nat
  ver : NodePtr
  pc : LoopPc
deriving DecidableEq, Repr

def Frame.enter (idx : Nat) : Frame := ⟨idx, .head, .test⟩

/-- A hook has changed the graph to `g`. -/
def Frame.after (g : Digraph) (f : Frame) : Frame :=
  let list := (g.vertexList f.idx).next
  { f with
    ver := f.ver.after list
    pc := match f.pc with
      | .target ptr => .target (ptr.after list)
      | pc => pc }

/-- Where the checking thread is. -/
inductive Checker
  | sleep
  /-- at the head of the loop in `check_dead_lock` -/
  | outer (i : Nat)
  /-- in `search_for_cycle(i)`, the last frame, or in a `DFS` above it -/
  | search (i : Nat) (top : Frame) (below : List Frame)
deriving DecidableEq, Repr

def Checker.after (g : Digraph) : Checker → Checker
  | .search i top below => .search i (top.after g) (below.map (Frame.after g))
  | c => c

structure State where
  tg : TaskGraph
  checker : Checker
  /-- the checker has read through a null or dangling pointer -/
  undefined : Bool
  /-- the graphs from the start of the check to its end -/
  moments : List Digraph
  /-- the paths reported since the check started -/
  reported : List (List Nat)

/-- Behind `start_check`, which leaves everything but the two counts as it comes
from `malloc`. -/
def Started (tg : TaskGraph) : Prop :=
  tg.graph.vertexNum = 0 ∧ tg.locks.lockNum = 0

def init (tg : TaskGraph) : State where
  tg := tg
  checker := .sleep
  undefined := false
  moments := []
  reported := []

/-- `path[0 .. k - 1]` -/
def pathList (s : Search) : List Nat :=
  (List.range s.k).map fun i => (s.path i).toNat

def State.setTop (s : State) (i : Nat) (top : Frame) (below : List Frame) : State :=
  { s with checker := .search i top below }

def State.setSearch (s : State) (search : Search) : State :=
  { s with tg := { s.tg with search := search } }

/-- `DFS` comes to a marked vertex: it reports the path and returns to the loop
that has called it. -/
def report (s : State) (i : Nat) (top : Frame) (below : List Frame) (j : Nat) :
    Option State := do
  let search ← s.tg.search.push j
  let line ← s.tg.graph.printDeadlock search
  let search := { search with deadlock := 1, printed := search.printed ++ [line] }
  let back := { search with k := if below = [] then search.k else search.k - 1 }
  some { s.setSearch back with
    checker := .search i { top with pc := .advance } below
    reported := s.reported ++ [pathList search] }

/-- `DFS(j)`, called by the loop of `top`. -/
def callDfs (s : State) (i : Nat) (top : Frame) (below : List Frame) (j : Nat) :
    Option State :=
  if s.tg.search.visited j = 1 then report s i top below j
  else do
    let search ← (s.tg.search.mark j).push j
    some ((s.setSearch search).setTop i (.enter j) ({ top with pc := .advance } :: below))

/-- The loop of `top` has ended.  `DFS` returns, and its caller does `k--` if it
is a `DFS` itself; behind `search_for_cycle(i)` comes the next `i`. -/
def leave (s : State) (i : Nat) : List Frame → State
  | [] => { s with checker := .outer (i + 1) }
  | caller :: below =>
      let search := s.tg.search
      (s.setSearch { search with k := if below = [] then search.k else search.k - 1 }).setTop
        i caller below

/-- A step of a loop over an adjacency list. -/
def loopStep (s : State) (i : Nat) (top : Frame) (below : List Frame) : Option State :=
  let list := (s.tg.graph.vertexList top.idx).next
  match top.pc with
  | .test =>
      match top.ver.next list with
      | none => some { s with undefined := true }
      | some .null => some (leave s i below)
      | some _ =>
          let s := s.setTop i { top with pc := .argument } below
          -- `search_for_cycle` takes the marks back in every round
          some (if below = [] then s.setSearch (s.tg.graph.resetFor i s.tg.search) else s)
  | .argument =>
      match top.ver.next list with
      | none => some { s with undefined := true }
      | some ptr => some (s.setTop i { top with pc := .target ptr } below)
  | .target (.node target) => do
      let j ← s.tg.graph.searchVertex target
      callDfs s i top below j
  | .target _ => some { s with undefined := true }
  | .advance =>
      match top.ver.next list with
      | none => some { s with undefined := true }
      | some ptr => some (s.setTop i { top with ver := ptr, pc := .test } below)

/-- The start of `search_for_cycle`. -/
def startSearch (s : State) (i : Nat) : State :=
  let search := s.tg.search.mark i
  (s.setSearch { search with path := Function.update search.path 0 i, k := 1 }).setTop
    i (.enter i) []

/-- A step of `check_dead_lock`. -/
def checkStep (s : State) : Option State :=
  match s.checker with
  | .sleep =>
      some { s.setSearch { s.tg.search with deadlock := 0 } with
        checker := .outer 0
        moments := [s.tg.graph]
        reported := [] }
  | .outer i =>
      if i < s.tg.graph.vertexNum ∧ s.tg.search.deadlock ≠ 1 then some (startSearch s i)
      else some { s with checker := .sleep }
  | .search i top below => loopStep s i top below

inductive Hook
  | lockBefore (thread lock : Nat)
  | lockAfter (thread lock : Nat)
  | unlockAfter (thread lock : Nat)
deriving DecidableEq, Repr

def Hook.lock : Hook → Nat
  | .lockBefore _ lock | .lockAfter _ lock | .unlockAfter _ lock => lock

def Hook.run (tg : TaskGraph) : Hook → Option TaskGraph
  | .lockBefore thread lock => tg.lockBefore thread lock
  | .lockAfter thread lock => tg.lockAfter thread lock
  | .unlockAfter thread lock => tg.unlockAfter thread lock

inductive Action
  | hook (h : Hook)
  | check
deriving DecidableEq, Repr

/-- A hook in one piece, or a step of the checker.  The address of a mutex is
never `0`. -/
def step (s : State) : Action → Option State
  | .check => checkStep s
  | .hook h =>
      if h.lock ≠ 0 then do
        let tg ← h.run s.tg
        some { s with
          tg := tg
          checker := s.checker.after tg.graph
          moments := if s.checker = .sleep then s.moments else s.moments ++ [tg.graph] }
      else none

end ConcurrentCheck
end DeadlockCheck
end LinuxCppLearn
