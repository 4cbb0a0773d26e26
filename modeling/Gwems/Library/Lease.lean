import Mathlib

/-!
# Leases with throttled renewal

The holder of a lease keeps it by giving signs of life. To renew the lease at each of them may cost
too much, so that a sign of life renews it only if the last renewal is more than a period ago.
`Lease.beat` is one sign of life; it may leave the deadline where it is.

`Lease.Held` is the invariant that relates the deadline to the time up to which the lease is not
renewed. By `Held.lt_deadline`, a holder whose signs of life are less than the time to live minus
the period apart never sees its lease run out.
-/

namespace Gwems

/-- A lease: the last sign of life of its holder, the time up to which signs of life do not renew
it, and its deadline. -/
structure Lease where
  last : ℤ
  next : ℤ
  deadline : ℤ

namespace Lease

variable {l : Lease} {period ttl now : ℤ}

/-- A lease that is granted, or renewed, now. -/
def grant (period ttl now : ℤ) : Lease where
  last := now
  next := now + period
  deadline := now + ttl

/-- A sign of life. -/
def beat (l : Lease) (period ttl now : ℤ) : Lease :=
  if l.next < now then grant period ttl now else { l with last := now }

/-- The holder has not been heard of since renewals were possible again, and the deadline is that
of the last renewal. -/
structure Held (period ttl : ℤ) (l : Lease) : Prop where
  last_le : l.last ≤ l.next
  deadline_eq : l.deadline = l.next + (ttl - period)

theorem held_grant (hperiod : 0 ≤ period) : Held period ttl (grant period ttl now) where
  last_le := Int.le_add_of_nonneg_right hperiod
  deadline_eq := by
    change now + ttl = now + period + (ttl - period)
    omega

/-- A sign of life that does not renew the lease comes before the next renewal. -/
theorem Held.beat (h : Held period ttl l) (hperiod : 0 ≤ period) :
    Held period ttl (l.beat period ttl now) := by
  rw [Lease.beat]
  split
  next => exact held_grant hperiod
  next hlate => exact ⟨not_lt.mp hlate, h.deadline_eq⟩

/-- **A lease does not run out** sooner than the time to live minus the period after the last sign
of life. -/
theorem Held.lt_deadline (h : Held period ttl l) (hnow : now < l.last + (ttl - period)) :
    now < l.deadline :=
  calc now < l.last + (ttl - period) := hnow
    _ ≤ l.next + (ttl - period) := Int.add_le_add_right h.last_le _
    _ = l.deadline := h.deadline_eq.symm

end Lease

end Gwems
