import Aesd.Lib.LinkedList
import Aesd.Server.MainLoop

/-! The list of client threads in memory: the `SLIST` macros of `queue.h` that the server uses, and
`join_threads` over them, one pointer access at a time. An access to a block that is not live or is
of another kind has no result. -/
namespace Aesd.Server
open Driver (Byte)
open LinkedList

/-- `struct LinkedListItem`, with the `sle_next` of its `SLIST_ENTRY`. -/
structure LinkedListItem where
  threadId : ℕ
  clientIpString : List Byte
  sleNext : Option ℕ
  deriving DecidableEq

/-- A live block: a list item, a `struct ThreadData` (`ThreadData.addr` is its address), or one that
is neither. -/
inductive Block where
  | item (i : LinkedListItem)
  | data (clientFd : Fd) (threadState : ThreadState)
  | other (bytes : List Byte)
  deriving DecidableEq

/-- What `join_threads` does outside the list: the calls it makes, in order. -/
inductive JoinCall where
  | tryJoin (item thread : ℕ) (joined : Bool)
  | log (clientIpString : List Byte)
  | close (fd : Fd)
  | free (addr : ℕ)
  deriving DecidableEq

/-- The memory of the process with `linked_list.slh_first`, its open descriptors and the calls made
so far. -/
structure ThreadList where
  slhFirst : Option ℕ
  blocks : ℕ → Option Block
  fds : Fd → Bool
  calls : List JoinCall

namespace ThreadList

def item (p : ThreadList) (a : ℕ) : Option LinkedListItem :=
  match p.blocks a with
  | some (.item i) => some i
  | _ => none

/-- `thread_data_ptr->client_fd`. -/
def clientFd (p : ThreadList) (a : ℕ) : Option Fd :=
  match p.blocks a with
  | some (.data fd _) => some fd
  | _ => none

def call (p : ThreadList) (c : JoinCall) : ThreadList := { p with calls := p.calls ++ [c] }

/-- `SLIST_EMPTY`. -/
def slistEmpty (p : ThreadList) : Bool := p.slhFirst = none

/-- `SLIST_NEXT`. -/
def slistNext (p : ThreadList) (a : ℕ) : Option (Option ℕ) := (p.item a).map (·.sleNext)

/-- `SLIST_NEXT` on the left of an assignment. -/
def setNext (p : ThreadList) (a : ℕ) (next : Option ℕ) : Option ThreadList :=
  (p.item a).map fun i =>
    { p with blocks := Function.update p.blocks a (some (.item { i with sleNext := next })) }

/-- `SLIST_INSERT_HEAD`. -/
def slistInsertHead (p : ThreadList) (elm : ℕ) : Option ThreadList :=
  (p.setNext elm p.slhFirst).map fun p => { p with slhFirst := some elm }

/-- `SLIST_REMOVE_HEAD`. -/
def slistRemoveHead (p : ThreadList) : Option ThreadList := do
  let first ← p.slhFirst
  let next ← p.slistNext first
  some { p with slhFirst := next }

/-- `SLIST_REMOVE_AFTER`. -/
def slistRemoveAfter (p : ThreadList) (elm : ℕ) : Option ThreadList := do
  let link ← p.slistNext elm
  let next ← link
  let after ← p.slistNext next
  p.setNext elm after

/-- `SLIST_REMOVE`, its `while` loop for at most `fuel` rounds. -/
def slistRemove (p : ThreadList) (fuel elm : ℕ) : Option ThreadList :=
  if p.slhFirst = some elm then p.slistRemoveHead
  else do
    let curelm ← p.slhFirst
    let curelm ← predecessor p.slistNext elm fuel curelm
    p.slistRemoveAfter curelm

/-- `create_thread` when every call succeeds: `malloc` returns the two addresses, the item with
whatever link the memory held, and `pthread_create` stores the thread's id. -/
def createThread (p : ThreadList) (item threadData threadId : ℕ) (clientIpString : List Byte)
    (sleNext : Option ℕ) (fd : Fd) : Option ThreadList :=
  let blocks := Function.update p.blocks item (some (.item ⟨threadId, clientIpString, sleNext⟩))
  let blocks := Function.update blocks threadData (some (.data fd .waitingForData))
  { p with blocks := blocks }.slistInsertHead item

/-- `close`, whose result is not looked at: on a descriptor that is not open it changes nothing. -/
def close (p : ThreadList) (fd : Fd) : ThreadList :=
  { p with fds := Function.update p.fds fd false }.call (.close fd)

/-- `free` of a live block. -/
def free (p : ThreadList) (a : ℕ) : Option ThreadList :=
  (p.blocks a).map fun _ => { p with blocks := Function.update p.blocks a none }.call (.free a)

/-- The body of the loop, at the `k`-th call of `pthread_tryjoin_np`. `threadReturn` is what each
thread returns, `NULL` being `none`. -/
def joinVisit (threadReturn : ℕ → Option ℕ) (finished : ℕ → Bool) (fuel : ℕ) (p : ThreadList)
    (k item : ℕ) : Option ThreadList := do
  let i ← p.item item
  let p := p.call (.tryJoin item i.threadId (finished k))
  if finished k then
    let p := p.call (.log i.clientIpString)
    let threadData ← threadReturn i.threadId
    let fd ← p.clientFd threadData
    let p ← (p.close fd).slistRemove fuel item
    let p ← p.free item
    p.free threadData
  else some p

/-- `join_threads`, its loops for at most `fuel` rounds each. -/
def joinThreads (p : ThreadList) (threadReturn : ℕ → Option ℕ) (finished : ℕ → Bool) (fuel : ℕ) :
    Option ThreadList :=
  foreachSafe slistNext (joinVisit threadReturn finished fuel) fuel 0 p.slhFirst p

end ThreadList

end Aesd.Server
