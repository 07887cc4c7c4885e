/-!
# Machine words

Counts, indices and lengths are natural numbers below `2 ^ 64`. Where a count can leave that range it
goes on from zero, and a list of numbers never has `2 ^ 60` elements or more.
-/

namespace Tandem.Word

def count : Nat := UInt64.size

/-- The word that a natural number leaves after wrapping around. -/
def wrap (n : Nat) : Nat := n % count

/-- No list of numbers is this long. -/
def room : Nat := count / 16

theorem wrap_of_lt {n : Nat} (h : n < count) : wrap n = n := Nat.mod_eq_of_lt h

end Tandem.Word
