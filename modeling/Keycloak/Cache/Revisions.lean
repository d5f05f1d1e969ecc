import Keycloak.Lib.Machine
import Mathlib.Logic.Function.Basic

/-!
# The revisioned object cache

`CacheManager` keeps, on every node, an object cache, a local map of revision numbers
and a counter.  A reader transaction captures the counter at its start, and caches what
it reads from the database only if the revision of the id has not moved past that
number.  A writer transaction commits to the database, removes the object, draws the
next number for the id and tells the other nodes to do the same.

Each label below is one operation on one of the shared structures, so a list of labels
is an interleaving of the threads of all nodes.  A thread belongs to one node, given by
`home`.  A value read from the database is represented by its `snapshot`, the number of
commits to its id that it has seen: the value is older than commit `k` when
`snapshot < k`.

`revisions` is a transactional cache with pessimistic locking: while one thread holds
the lock of an id in a batch, a `put` to that id by another thread waits, and the
batch's own `put` is seen when the batch ends.  Entries of both caches may be evicted
at any time.

`drawn` and `completed` are ghost state: the invalidations of an id, each with its
commit and its number, for which the number has been drawn from the counter, and for
which it has also been written to the revision map.
-/

namespace Keycloak.Cache

/-- A cached object: its `Revisioned.getRevision` and the database state it was read
from. -/
structure Revisioned where
  revision : Nat
  snapshot : Nat
  deriving DecidableEq

/-- An invalidation of an id: the commit it is for and the number drawn for it. -/
structure Invalidation where
  commit : Nat
  number : Nat
  deriving DecidableEq

structure NodeState (Key Thread : Type) where
  counter : Nat
  revisions : Key → Option Nat
  cache : Key → Option Revisioned
  lock : Key → Option Thread
  drawn : Key → List Invalidation
  completed : Key → List Invalidation

inductive ReaderPc (Key : Type) where
  /-- No load in progress. -/
  | open
  /-- `get` has found an object; `since` are the invalidations completed before it. -/
  | checking (id : Key) (o : Revisioned) (since : List Invalidation)
  /-- `get` has returned the object. -/
  | served (id : Key) (o : Revisioned) (since : List Invalidation)
  /-- `get` has returned null. -/
  | missed (id : Key)
  /-- `getCurrentRevision` has found no revision. -/
  | unversioned (id : Key)
  /-- `getCurrentRevision` has returned. -/
  | versioned (id : Key) (loaded : Nat)
  /-- The object is built; `addRevisioned` comes next. -/
  | adding (id : Key) (o : Revisioned)
  /-- `addRevisioned` has found no revision. -/
  | unseeded (id : Key) (o : Revisioned)
  /-- `addRevisioned` has read the counter and will put it as the revision. -/
  | seeding (id : Key) (o : Revisioned) (rev : Nat)
  /-- A revision is there; the batch and its lock come next. -/
  | locking (id : Key) (o : Revisioned)
  /-- In the batch, with the lock. -/
  | comparing (id : Key) (o : Revisioned)
  /-- The comparisons let the object pass; `pending` is the batch's own revision put. -/
  | storing (id : Key) (o : Revisioned) (pending : Option Nat)
  /-- Before `endRevisionBatch`. -/
  | ending (id : Key) (pending : Option Nat)

inductive ThreadState (Key : Type) where
  | idle
  | reader (startupRevision : Nat) (started : Key → Nat) (pc : ReaderPc Key)
  /-- `invalidateObject(id)` for a commit, before `cache.remove`. -/
  | invalidating (id : Key) (commit : Nat) (notifies : Bool)
  /-- The object is removed; `counter.next` comes next. -/
  | removed (id : Key) (commit : Nat) (notifies : Bool)
  /-- The number is drawn; `revisions.put` comes next. -/
  | bumping (id : Key) (inv : Invalidation) (notifies : Bool)
  /-- Before the events to the other nodes are sent. -/
  | notifying (id : Key) (commit : Nat)

structure State (Node Key Thread : Type) where
  nodes : Node → NodeState Key Thread
  commits : Key → Nat
  threads : Thread → ThreadState Key
  events : Node → List (Key × Nat)

inductive ReaderOp (Key : Type) where
  | get (id : Key)
  | check
  | resume
  | currentRevision
  | currentCounter
  | readDatabase (snapshot : Nat)
  | readRevision
  | readCounter
  | seedRevision
  | lockRevision
  | lockFails
  | compare
  | storeObject
  | endBatch

inductive InvalidateOp where
  | removeObject
  | nextNumber
  | putNumber

inductive Label (Node Key Thread : Type) where
  | beginReader (t : Thread)
  | read (t : Thread) (op : ReaderOp Key)
  | endReader (t : Thread)
  | commit (t : Thread) (id : Key)
  | rollback (t : Thread) (id : Key)
  | invalidate (t : Thread) (op : InvalidateOp)
  | notify (t : Thread)
  | deliver (t : Thread) (index : Nat)
  | evictRevision (n : Node) (id : Key)
  | evictObject (n : Node) (id : Key)

section Model

variable {Node Key Thread : Type} [DecidableEq Node] [DecidableEq Key] [DecidableEq Thread]

namespace NodeState

def putRevision (n : NodeState Key Thread) (id : Key) (rev : Nat) : NodeState Key Thread :=
  { n with revisions := Function.update n.revisions id (some rev) }

/-- `cache.putForExternalRead`: an entry that is there stays. -/
def putForExternalRead (n : NodeState Key Thread) (id : Key) (o : Revisioned) :
    NodeState Key Thread :=
  match n.cache id with
  | some _ => n
  | none => { n with cache := Function.update n.cache id (some o) }

def setLock (n : NodeState Key Thread) (id : Key) (holder : Option Thread) :
    NodeState Key Thread :=
  { n with lock := Function.update n.lock id holder }

/-- `counter.next` for an invalidation of `id`. -/
def drawNumber (n : NodeState Key Thread) (id : Key) (inv : Invalidation) :
    NodeState Key Thread :=
  { n with
    counter := inv.number
    drawn := Function.update n.drawn id (inv :: n.drawn id) }

def complete (n : NodeState Key Thread) (id : Key) (inv : Invalidation) :
    NodeState Key Thread :=
  { n.putRevision id inv.number with
    completed := Function.update n.completed id (inv :: n.completed id) }

end NodeState

def compareRevision (rev : Option Nat) (startupRevision : Nat) (id : Key) (o : Revisioned) :
    ReaderPc Key :=
  match rev with
  | none => .ending id none
  | some rev =>
      if rev > startupRevision then .ending id none
      else if rev = o.revision then .storing id o none
      else if rev > o.revision then .ending id none
      else .storing id o (some o.revision)

def State.update (s : State Node Key Thread) (n : Node) (node : NodeState Key Thread)
    (t : Thread) (thread : ThreadState Key) : State Node Key Thread :=
  { s with
    nodes := Function.update s.nodes n node
    threads := Function.update s.threads t thread }

def State.move (s : State Node Key Thread) (t : Thread) (thread : ThreadState Key) :
    State Node Key Thread :=
  { s with threads := Function.update s.threads t thread }

/-- The next state of a reader transaction and of its node, for the operations of
`get`, `getCurrentRevision`, the database read and `addRevisioned`. -/
def readerStep (node : NodeState Key Thread) (commits : Key → Nat) (t : Thread)
    (startup : Nat) (started : Key → Nat) :
    ReaderPc Key → ReaderOp Key → Option (NodeState Key Thread × ReaderPc Key)
  | .open, .get id =>
      match node.cache id with
      | none => some (node, .missed id)
      | some o => some (node, .checking id o (node.completed id))
  | .checking id o since, .check =>
      match node.revisions id with
      | none => some (node, .missed id)
      | some rev =>
          if rev > o.revision then some (node, .missed id)
          else some (node, .served id o since)
  | .served _ _ _, .resume => some (node, .open)
  | .missed id, .currentRevision =>
      match node.revisions id with
      | none => some (node, .unversioned id)
      | some rev => some (node, .versioned id rev)
  | .unversioned id, .currentCounter => some (node, .versioned id node.counter)
  | .versioned id loaded, .readDatabase snapshot =>
      if started id ≤ snapshot ∧ snapshot ≤ commits id then
        some (node, .adding id ⟨loaded, snapshot⟩)
      else none
  | .adding id o, .readRevision =>
      match node.revisions id with
      | none => some (node, .unseeded id o)
      | some _ => some (node, .locking id o)
  | .unseeded id o, .readCounter => some (node, .seeding id o node.counter)
  | .seeding id o rev, .seedRevision =>
      if node.lock id = none then some (node.putRevision id rev, .locking id o) else none
  | .locking id o, .lockRevision =>
      if node.lock id = none then some (node.setLock id (some t), .comparing id o) else none
  | .locking _ _, .lockFails => some (node, .open)
  | .comparing id o, .compare =>
      some (node, compareRevision (node.revisions id) startup id o)
  | .storing id o pending, .storeObject => some (node.putForExternalRead id o, .ending id pending)
  | .ending id pending, .endBatch =>
      match pending with
      | none => some (node.setLock id none, .open)
      | some rev => some ((node.putRevision id rev).setLock id none, .open)
  | _, _ => none

/-- The next state of a writer or of the receiver of an event, and of its node, for the
operations of `invalidateObject`. -/
def invalidateStep (node : NodeState Key Thread) :
    ThreadState Key → InvalidateOp → Option (NodeState Key Thread × ThreadState Key)
  | .invalidating id commit notifies, .removeObject =>
      some ({ node with cache := Function.update node.cache id none },
        .removed id commit notifies)
  | .removed id commit notifies, .nextNumber =>
      let inv : Invalidation := ⟨commit, node.counter + 1⟩
      some (node.drawNumber id inv, .bumping id inv notifies)
  | .bumping id inv notifies, .putNumber =>
      if node.lock id = none then
        some (node.complete id inv, if notifies then .notifying id inv.commit else .idle)
      else none
  | _, _ => none

def step (home : Thread → Node) (s : State Node Key Thread) :
    Label Node Key Thread → Option (State Node Key Thread)
  | .beginReader t =>
      match s.threads t with
      | .idle => some (s.move t (.reader (s.nodes (home t)).counter s.commits .open))
      | _ => none
  | .read t op =>
      match s.threads t with
      | .reader startup started pc =>
          (readerStep (s.nodes (home t)) s.commits t startup started pc op).map
            fun (node, pc') => s.update (home t) node t (.reader startup started pc')
      | _ => none
  | .endReader t =>
      match s.threads t with
      | .reader _ _ .open => some (s.move t .idle)
      | _ => none
  | .commit t id =>
      match s.threads t with
      | .idle =>
          let commit := s.commits id + 1
          some { s.move t (.invalidating id commit true) with
            commits := Function.update s.commits id commit }
      | _ => none
  | .rollback t id =>
      match s.threads t with
      | .idle => some (s.move t (.invalidating id 0 true))
      | _ => none
  | .invalidate t op =>
      (invalidateStep (s.nodes (home t)) (s.threads t) op).map
        fun (node, thread) => s.update (home t) node t thread
  | .notify t =>
      match s.threads t with
      | .notifying id commit =>
          some { s.move t .idle with
            events := fun n =>
              if n = home t then s.events n else s.events n ++ [(id, commit)] }
      | _ => none
  | .deliver t index =>
      match s.threads t, (s.events (home t))[index]? with
      | .idle, some (id, commit) =>
          some { s.move t (.invalidating id commit false) with
            events := Function.update s.events (home t)
              ((s.events (home t)).eraseIdx index) }
      | _, _ => none
  | .evictRevision n id =>
      some { s with
        nodes := Function.update s.nodes n
          { s.nodes n with revisions := Function.update (s.nodes n).revisions id none } }
  | .evictObject n id =>
      some { s with
        nodes := Function.update s.nodes n
          { s.nodes n with cache := Function.update (s.nodes n).cache id none } }

def initial (commits : Key → Nat) : State Node Key Thread :=
  { nodes := fun _ => ⟨0, fun _ => none, fun _ => none, fun _ => none, fun _ => [],
      fun _ => []⟩
    commits
    threads := fun _ => .idle
    events := fun _ => [] }

end Model

end Keycloak.Cache
