import NanoSwift.Lib.Pocklington
import NanoSwift.Monocypher.ModL

/-!
# The two primes

The coordinates of points are numbers modulo `2 ^ 255 - 19`, and the scalars numbers modulo
the order of the base point. Both are prime: a chain of primes leads up to each.
-/

namespace MonocypherC

/-- The order of the field of the coordinates. -/
def p25519 : ℕ := 2 ^ 255 - 19

/-- Small primes, from which the chains start. -/
def smallPrimes : List ℕ := [97, 103, 127, 419, 991, 1723, 2551, 3797, 4153]

theorem prime_of_mem_smallPrimes : ∀ q ∈ smallPrimes, q.Prime := by
  simp only [smallPrimes, List.forall_mem_cons, List.not_mem_nil, false_imp_iff, implies_true,
    and_true]
  norm_num

/-- A chain up to `2 ^ 255 - 19`. -/
def chain25519 : List Pocklington.Entry :=
  [⟨430751, 2, [1723]⟩,
    ⟨31757755568855353, 2, [430751, 4153]⟩,
    ⟨569003, 2, [419, 97]⟩,
    ⟨2773320623, 2, [569003]⟩,
    ⟨72106336199, 2, [2773320623]⟩,
    ⟨8574133, 2, [991, 103]⟩,
    ⟨1919519569386763, 2, [8574133, 127]⟩,
    ⟨75445702479781427272750846543864801, 2, [1919519569386763, 72106336199]⟩,
    ⟨74058212732561358302231226437062788676166966415465897661863160754340907, 2,
      [75445702479781427272750846543864801, 31757755568855353]⟩,
    ⟨p25519, 2, [74058212732561358302231226437062788676166966415465897661863160754340907]⟩]

/-- A chain up to the order. -/
def chainOrder : List Pocklington.Entry :=
  [⟨531581, 2, [3797]⟩,
    ⟨1224481, 2, [2551]⟩,
    ⟨1257559732178653, 2, [1224481, 531581]⟩,
    ⟨4434155615661930479, 2, [1257559732178653]⟩,
    ⟨172054593956031949258510691, 2, [4434155615661930479]⟩,
    ⟨19757330305831588566944191468367130476339, 2, [172054593956031949258510691]⟩,
    ⟨276602624281642239937218680557139826668747, 2, [19757330305831588566944191468367130476339]⟩,
    ⟨order, 2, [276602624281642239937218680557139826668747]⟩]

theorem primes_chain25519 : ∀ e ∈ chain25519, e.n.Prime :=
  Pocklington.primes_of_check (k := 256) prime_of_mem_smallPrimes (by decide +kernel)

theorem primes_chainOrder : ∀ e ∈ chainOrder, e.n.Prime :=
  Pocklington.primes_of_check (k := 256) prime_of_mem_smallPrimes (by decide +kernel)

theorem prime_p25519 : p25519.Prime := primes_chain25519 _ (List.mem_of_getLast? rfl)

theorem prime_order : order.Prime := primes_chainOrder _ (List.mem_of_getLast? rfl)

end MonocypherC
