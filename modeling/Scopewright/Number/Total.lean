/-! # Sums

The sum of a list of natural numbers (`Number.total`). -/

namespace Scopewright
namespace Number

/-- The sum of some numbers. -/
def total : List Nat → Nat
  | [] => 0
  | n :: ns => n + total ns

theorem total_append (ms ns : List Nat) : total (ms ++ ns) = total ms + total ns := by
  induction ms with
  | nil => simp only [List.nil_append, total, Nat.zero_add]
  | cons m ms ih => simp only [List.cons_append, total, ih, Nat.add_assoc]

theorem total_reverse (ns : List Nat) : total ns.reverse = total ns := by
  induction ns with
  | nil => rfl
  | cons n ns ih =>
    rw [List.reverse_cons, total_append, ih]
    simp only [total]
    omega

end Number
end Scopewright
