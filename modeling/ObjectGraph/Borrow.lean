/-! Run-time borrows of a node: any number of readers, or one writer. -/
namespace ObjectGraph

inductive Borrow where
  /-- Borrowed by this many readers, none included. -/
  | shared (readers : Nat)
  | exclusive
  deriving DecidableEq, Repr

namespace Borrow

def free : Borrow := .shared 0

def isExclusive (b : Borrow) : Bool := b = .exclusive

def share? : Borrow → Option Borrow
  | .shared readers => some (.shared (readers + 1))
  | .exclusive => none

def own? : Borrow → Option Borrow
  | .shared 0 => some .exclusive
  | _ => none

def release : Borrow → Borrow
  | .shared readers => .shared (readers - 1)
  | .exclusive => free

theorem own?_eq_some {b c : Borrow} : b.own? = some c ↔ b = free ∧ c = .exclusive := by
  cases b with
  | exclusive => simp [own?, free]
  | shared readers => cases readers <;> simp [own?, free, eq_comm]

end Borrow
end ObjectGraph
