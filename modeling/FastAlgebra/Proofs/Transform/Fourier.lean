import Mathlib
import FastAlgebra.Proofs.CoeffList
import FastAlgebra.Proofs.Transform.Reversal

/-! Sums of roots of unity, level by level. A transform of even length is made up of the transforms
of the entries at even and at odd positions. Started on the entries in the order of their reversed
indices, this builds the whole transform out of blocks of doubling length. The transform of the
mirrored transform gives the entries back, up to the length.
-/

namespace FastAlgebra

open CoeffList Polynomial

variable {R : Type} [CommRing R]

/-- Entry `i` of the transform of length `n` at `w`. -/
def fourier (w : R) (n : Nat) (a : Nat → R) (i : Nat) : R :=
  ∑ j ∈ Finset.range n, a j * w ^ (i * j)

/-- The whole transform of a list. -/
def spectrum (w : R) (n : Nat) (a : List R) : List R :=
  (List.range n).map (fourier w n (coeff a))

@[simp]
theorem length_spectrum (w : R) (n : Nat) (a : List R) : (spectrum w n a).length = n := by
  rw [spectrum, List.length_map, List.length_range]

theorem coeff_spectrum (w : R) (a : List R) {n i : Nat} (h : i < n)
    : coeff (spectrum w n a) i = fourier w n (coeff a) i := by
  rw [coeff_eq_getElem (by rwa [length_spectrum])]
  simp [spectrum]

-----------------------------------------------------------------------------------------
-- Joining the even and the odd entries
-----------------------------------------------------------------------------------------

/-- A transform of even length splits into those of the even and of the odd entries, by induction
on half the length.
-/
theorem fourier_two_mul (w : R) (n : Nat) (a : Nat → R) (i : Nat)
    : fourier w (2 * n) a i
      = fourier (w ^ 2) n (fun j => a (2 * j)) i
        + w ^ i * fourier (w ^ 2) n (fun j => a (2 * j + 1)) i := by
  induction n with
  | zero => simp [fourier]
  | succ n ih =>
      have even : i * (2 * n) = 2 * (i * n) := by ring
      have odd : i * (2 * n + 1) = i + 2 * (i * n) := by ring
      simp only [fourier] at ih ⊢
      rw [Nat.mul_succ, Finset.sum_range_succ, Finset.sum_range_succ, ih, Finset.sum_range_succ,
        Finset.sum_range_succ, even, odd, ← pow_mul, pow_add]
      ring

/-- Past its length a transform repeats. -/
theorem fourier_add_length {w : R} {n : Nat} (order : w ^ n = 1) (a : Nat → R) (i : Nat)
    : fourier w n a (n + i) = fourier w n a i := by
  apply Finset.sum_congr rfl
  intro j _
  rw [add_mul, pow_add, pow_mul w n, order, one_pow, one_mul]

/-- The first half of a joined transform. -/
theorem fourier_join (w : R) (n : Nat) (a : Nat → R) (i : Nat)
    : fourier (w ^ 2) n (fun j => a (2 * j)) i
        + w ^ i * fourier (w ^ 2) n (fun j => a (2 * j + 1)) i
      = fourier w (2 * n) a i :=
  (fourier_two_mul w n a i).symm

/-- The second half of a joined transform: the root has turned its sign. -/
theorem fourier_join_second {w : R} {n : Nat} (halfway : w ^ n = -1) (a : Nat → R) (i : Nat)
    : fourier (w ^ 2) n (fun j => a (2 * j)) i
        - w ^ i * fourier (w ^ 2) n (fun j => a (2 * j + 1)) i
      = fourier w (2 * n) a (n + i) := by
  have order : (w ^ 2) ^ n = 1 := by
    rw [← pow_mul, mul_comm, pow_mul, halfway, neg_one_sq]
  rw [fourier_two_mul, fourier_add_length order, fourier_add_length order, pow_add, halfway]
  ring

-----------------------------------------------------------------------------------------
-- Roots of all dyadic orders
-----------------------------------------------------------------------------------------

/-- Elements of the orders `1, 2, 4, …` up to a level: each is the square of the next one, and
the one of order two is minus one.
-/
structure DyadicRoots (root : Nat → R) (levels : Nat) : Prop where
  first : root 0 = 1
  second : 0 < levels → root 1 = -1
  square : ∀ s < levels, root (s + 1) ^ 2 = root s

namespace DyadicRoots

variable {root : Nat → R} {levels : Nat}

/-- Half of the order turns the sign, by induction on the level. -/
theorem pow_half (roots : DyadicRoots root levels) {s : Nat} (h : s < levels)
    : root (s + 1) ^ 2 ^ s = -1 := by
  induction s with
  | zero => rw [pow_zero, pow_one, roots.second h]
  | succ s ih => rw [pow_succ', pow_mul, roots.square _ h, ih (by omega)]

theorem pow_order (roots : DyadicRoots root levels) {s : Nat} (h : s ≤ levels)
    : root s ^ 2 ^ s = 1 := by
  cases s with
  | zero => rw [roots.first, one_pow]
  | succ s => rw [pow_succ, pow_mul, roots.pow_half h, neg_one_sq]

/-- Sums over whole periods are multiples of the sum over one period. -/
private theorem sum_pow_mul {z : R} {period : Nat} (repeats : z ^ period = 1) (blocks : Nat)
    : ∑ i ∈ Finset.range (period * blocks), z ^ i
      = blocks * ∑ i ∈ Finset.range period, z ^ i := by
  induction blocks with
  | zero => simp
  | succ blocks ih =>
      rw [Nat.mul_succ, Finset.sum_range_add, ih]
      simp only [pow_add, pow_mul, repeats, one_pow, one_mul]
      push_cast
      ring

/-- The powers of a root add up to zero, except for the root one: split off the factors of two of
the step, then the halves of a period cancel each other.
-/
theorem sum_pow (roots : DyadicRoots root levels) {s d : Nat} (h : s ≤ levels)
    (notMultiple : ¬ 2 ^ s ∣ d)
    : ∑ i ∈ Finset.range (2 ^ s), (root s ^ d) ^ i = 0 := by
  have nonzero : d ≠ 0 := fun zero => notMultiple (zero ▸ dvd_zero _)
  obtain ⟨e, odd, isOdd, rfl⟩ := Nat.exists_eq_two_pow_mul_odd nonzero
  have small : e < s := by
    by_contra large
    exact notMultiple ((pow_dvd_pow 2 (by omega)).trans (dvd_mul_right _ _))
  obtain ⟨r, rfl⟩ : ∃ r, s = e + (r + 1) := ⟨s - e - 1, by omega⟩
  have turned : (root (e + (r + 1)) ^ (2 ^ e * odd)) ^ 2 ^ r = -1 := by
    have exponent : 2 ^ e * odd * 2 ^ r = 2 ^ (e + r) * odd := by ring
    rw [← pow_mul, exponent, pow_mul, ← Nat.add_assoc, roots.pow_half (by omega),
      isOdd.neg_one_pow]
  generalize root (e + (r + 1)) ^ (2 ^ e * odd) = z at turned
  have repeats : z ^ 2 ^ (r + 1) = 1 := by rw [pow_succ, pow_mul, turned, neg_one_sq]
  have halves : ∑ i ∈ Finset.range (2 ^ (r + 1)), z ^ i = 0 := by
    rw [pow_succ, mul_two, Finset.sum_range_add]
    simp only [pow_add, turned, neg_one_mul, Finset.sum_neg_distrib, add_neg_cancel]
  rw [pow_add, mul_comm, sum_pow_mul repeats, halves, mul_zero]

end DyadicRoots

-----------------------------------------------------------------------------------------
-- The levels of the transform
-----------------------------------------------------------------------------------------

/-- The entries of an array as a function, zero past the end. -/
def entry (a : Array R) (i : Nat) : R :=
  a.getD i 0

/-- One level on functions: in each block of length `2k` the halves are joined, the second one
weighted.
-/
def joinHalf (weight : Nat → R) (k : Nat) (b : Nat → R) (p : Nat) : R :=
  if p / k % 2 = 0 then
    b p + weight (k + p % k) * b (p + k)
  else
    b (p - k) - weight (k + p % k) * b p

/-- In a sequence of `2 ^ t` blocks of length `2 ^ s`, each block holds the transform of every
`2 ^ t`-th entry of `a`, from the reversed index of the block on.
-/
def Joined (root : Nat → R) (a : Nat → R) (s t : Nat) (b : Nat → R) : Prop :=
  ∀ block < 2 ^ t, ∀ i < 2 ^ s,
    b (block * 2 ^ s + i)
      = fourier (root s) (2 ^ s) (fun j => a (reverseDigits t block + 2 ^ t * j)) i

/-- Entries in the order of their reversed indices are blocks of length one. -/
theorem joined_zero {root : Nat → R} {a b : Nat → R} {t : Nat}
    (gathered : ∀ p < 2 ^ t, b p = a (reverseDigits t p))
    : Joined root a 0 t b := by
  intro block below i single
  have first : i = 0 := by simpa using single
  rw [first, pow_zero, mul_one, add_zero, gathered block below]
  simp [fourier]

/-- Only the entries below the length count. -/
theorem Joined.congr {root : Nat → R} {a b c : Nat → R} {s t : Nat}
    (joined : Joined root a s t b) (same : ∀ p < 2 ^ (s + t), c p = b p)
    : Joined root a s t c := by
  intro block below i within
  rw [← joined block below i within]
  apply same
  calc
    block * 2 ^ s + i < block * 2 ^ s + 2 ^ s := Nat.add_lt_add_left within _
    _ = (block + 1) * 2 ^ s := (Nat.succ_mul block (2 ^ s)).symm
    _ ≤ 2 ^ t * 2 ^ s := Nat.mul_le_mul_right _ below
    _ = 2 ^ (s + t) := by rw [← pow_add, Nat.add_comm]

/-- In the first half of a pair of blocks the later half is added. -/
theorem joinHalf_first (weight b : Nat → R) {k i : Nat} (block : Nat) (h : i < k)
    : joinHalf weight k b (block * (2 * k) + i)
      = b (2 * block * k + i) + weight (k + i) * b ((2 * block + 1) * k + i) := by
  have positive : 0 < k := by omega
  have position : block * (2 * k) + i = 2 * block * k + i := by ring
  have partner : 2 * block * k + i + k = (2 * block + 1) * k + i := by ring
  have quotient : (2 * block * k + i) / k = 2 * block := by
    rw [mul_comm, Nat.mul_add_div positive, Nat.div_eq_of_lt h, add_zero]
  have remainder : (2 * block * k + i) % k = i := by
    rw [mul_comm, Nat.mul_add_mod, Nat.mod_eq_of_lt h]
  rw [position, joinHalf, quotient, if_pos (Nat.mul_mod_right 2 block), remainder, partner]

/-- In the second half the entry is taken away from the earlier half. -/
theorem joinHalf_second (weight b : Nat → R) {k i : Nat} (block : Nat) (h : i < k)
    : joinHalf weight k b (block * (2 * k) + (k + i))
      = b (2 * block * k + i) - weight (k + i) * b ((2 * block + 1) * k + i) := by
  have positive : 0 < k := by omega
  have position : block * (2 * k) + (k + i) = (2 * block + 1) * k + i := by ring
  have partner : (2 * block + 1) * k + i - k = 2 * block * k + i := by
    rw [Nat.add_mul, one_mul]
    omega
  have quotient : ((2 * block + 1) * k + i) / k = 2 * block + 1 := by
    rw [mul_comm, Nat.mul_add_div positive, Nat.div_eq_of_lt h, add_zero]
  have remainder : ((2 * block + 1) * k + i) % k = i := by
    rw [mul_comm, Nat.mul_add_mod, Nat.mod_eq_of_lt h]
  rw [position, joinHalf, quotient, if_neg (by omega), remainder, partner]

/-- A level joins pairs of blocks. -/
theorem Joined.next {root : Nat → R} {levels : Nat} (roots : DyadicRoots root levels)
    {a b weight : Nat → R} {s t : Nat} (supported : s < levels)
    (weights : ∀ j < 2 ^ s, weight (2 ^ s + j) = root (s + 1) ^ j)
    (joined : Joined root a s (t + 1) b)
    : Joined root a (s + 1) t (joinHalf weight (2 ^ s) b) := by
  intro block below i within
  have even := joined (2 * block) (by rw [pow_succ]; omega)
  have odd := joined (2 * block + 1) (by rw [pow_succ]; omega)
  simp only [reverseDigits_two_mul, reverseDigits_two_mul_add_one] at even odd
  rw [← roots.square s supported] at even odd
  obtain ⟨slice, sliceEq⟩
      : ∃ slice : Nat → R, slice = fun j => a (reverseDigits t block + 2 ^ t * j) := ⟨_, rfl⟩
  have evenEntries : (fun j => a (reverseDigits t block + 2 ^ (t + 1) * j))
      = fun j => slice (2 * j) := by
    funext j
    rw [sliceEq, pow_succ, mul_assoc]
  have oddEntries : (fun j => a (2 ^ t + reverseDigits t block + 2 ^ (t + 1) * j))
      = fun j => slice (2 * j + 1) := by
    funext j
    rw [sliceEq, pow_succ]
    congr 1
    ring
  rw [evenEntries] at even
  rw [oddEntries] at odd
  have length : 2 ^ (s + 1) = 2 * 2 ^ s := pow_succ' 2 s
  rw [length] at within
  rw [← sliceEq, length]
  rcases Nat.lt_or_ge i (2 ^ s) with first | second
  · rw [joinHalf_first weight b block first, even i first, odd i first, weights i first,
      fourier_join]
  · obtain ⟨j, rfl⟩ := Nat.exists_eq_add_of_le second
    have inner : j < 2 ^ s := by omega
    rw [joinHalf_second weight b block inner, even j inner, odd j inner, weights j inner,
      fourier_join_second (roots.pow_half supported)]

/-- An array whose entries are those of the transform is the spectrum. -/
theorem spectrum_eq {w : R} {n : Nat} {a : List R} {b : Array R} (size : b.size = n)
    (entries : ∀ i < n, entry b i = fourier w n (entry a.toArray) i)
    : spectrum w n a = b.toList := by
  have source : entry a.toArray = CoeffList.coeff a := funext (getD_toArray a)
  apply ext_coeff (by rw [length_spectrum, Array.length_toList, size])
  intro i within
  have below : i < n := by rwa [length_spectrum] at within
  rw [coeff_spectrum w a below, ← source, ← entries i below, CoeffList.coeff,
    List.getD_eq_getElem?_getD, Array.getElem?_toList, entry, Array.getD_eq_getD_getElem?]

/-- A single block is the transform. -/
theorem Joined.eq_fourier {root : Nat → R} {a b : Nat → R} {s : Nat}
    (joined : Joined root a s 0 b) {i : Nat} (h : i < 2 ^ s)
    : b i = fourier (root s) (2 ^ s) a i := by
  have only := joined 0 (by simp) i h
  simpa using only

/-- The transform of the coefficients is the values of the polynomial at the powers of the root. -/
theorem fourier_coeff {p : R[X]} {n : Nat} (small : p.degree < n) (w : R) (i : Nat)
    : fourier w n p.coeff i = p.eval (w ^ i) := by
  rcases eq_or_ne p 0 with rfl | nonzero
  · simp [fourier]
  · rw [eval_eq_sum_range' ((natDegree_lt_iff_degree_lt nonzero).mpr small), fourier]
    exact Finset.sum_congr rfl (fun j _ => by rw [pow_mul])

-----------------------------------------------------------------------------------------
-- Transforming back
-----------------------------------------------------------------------------------------

@[simp]
theorem length_reflect {S : Type} (a : List S) : (reflect a).length = a.length := by
  cases a <;> simp [reflect]

theorem coeff_reflect {a : List R} {i : Nat} (h : i < a.length)
    : CoeffList.coeff (reflect a) i = CoeffList.coeff a ((a.length - i) % a.length) := by
  cases a with
  | nil => simp [reflect]
  | cons x rest =>
      cases i with
      | zero => simp [reflect]
      | succ i =>
          have below : i < rest.length := by simpa using h
          have index : ((x :: rest).length - (i + 1)) % (x :: rest).length
              = rest.length - 1 - i + 1 := by
            rw [List.length_cons, Nat.mod_eq_of_lt (by omega)]
            omega
          rw [index, reflect, coeff_cons_succ, coeff_cons_succ,
            coeff_eq_getElem (by rwa [List.length_reverse]), List.getElem_reverse,
            coeff_eq_getElem (by omega)]

/-- Mirroring an exponent inverts the power. -/
private theorem pow_mirror {w : R} {n : Nat} (order : w ^ n = 1) {i : Nat} (h : i < n)
    : w ^ ((n - i) % n) = (w ^ (n - 1)) ^ i := by
  rw [← pow_eq_pow_mod (n - i) order]
  apply left_inv_eq_right_inv (a := w ^ i)
  · rw [← pow_add, Nat.sub_add_cancel h.le, order]
  · rw [← mul_pow, ← pow_succ', Nat.sub_add_cancel (by omega), order, one_pow]

/-- The two positions of a mirrored transform are told apart modulo the length. -/
private theorem not_dvd_mirror {n l j : Nat} (hl : l < n) (hj : j < n) (different : j ≠ l)
    : ¬ n ∣ l + (n - 1) * j := by
  rintro ⟨c, multiple⟩
  apply different
  have shifted : l + n * j = n * c + j := by
    obtain ⟨k, rfl⟩ : ∃ k, n = k + 1 := ⟨n - 1, by omega⟩
    rw [Nat.add_sub_cancel] at multiple
    rw [← multiple]
    ring
  have remainders := congrArg (· % n) shifted
  simpa [Nat.mul_add_mod, Nat.mod_eq_of_lt hl, Nat.mod_eq_of_lt hj] using remainders.symm

/-- The transform of a mirrored transform as a double sum, with the inner sums over powers of the
root.
-/
private theorem fourier_mirror_eq_sum {w : R} {n : Nat} (order : w ^ n = 1) {v q : Nat → R}
    (mirrored : ∀ i < n, v i = fourier w n q ((n - i) % n)) (l : Nat)
    : fourier w n v l
      = ∑ j ∈ Finset.range n, q j * ∑ i ∈ Finset.range n, (w ^ (l + (n - 1) * j)) ^ i := by
  simp only [Finset.mul_sum]
  rw [Finset.sum_comm]
  apply Finset.sum_congr rfl
  intro i member
  rw [mirrored i (Finset.mem_range.mp member), fourier, Finset.sum_mul]
  apply Finset.sum_congr rfl
  intro j _
  rw [pow_mul w ((n - i) % n), pow_mirror order (Finset.mem_range.mp member)]
  ring

/-- Transforming a mirrored transform multiplies by the length: the powers of the root add up to
zero except where the two positions agree.
-/
theorem fourier_mirror {root : Nat → R} {levels s : Nat} (roots : DyadicRoots root levels)
    (h : s ≤ levels) {v q : Nat → R}
    (mirrored : ∀ i < 2 ^ s, v i = fourier (root s) (2 ^ s) q ((2 ^ s - i) % 2 ^ s))
    {l : Nat} (below : l < 2 ^ s)
    : fourier (root s) (2 ^ s) v l = (2 ^ s : Nat) * q l := by
  have order := roots.pow_order h
  have orthogonal := fun j => roots.sum_pow (d := l + (2 ^ s - 1) * j) h
  generalize 2 ^ s = n at *
  rw [fourier_mirror_eq_sum order mirrored, Finset.sum_eq_single l]
  · have whole : l + (n - 1) * l = n * l := by
      obtain ⟨k, rfl⟩ : ∃ k, n = k + 1 := ⟨n - 1, by omega⟩
      rw [Nat.add_sub_cancel]
      ring
    rw [whole, pow_mul, order, one_pow]
    simp [mul_comm]
  · intro j member different
    rw [orthogonal j (not_dvd_mirror below (Finset.mem_range.mp member) different), mul_zero]
  · intro outside
    exact absurd (Finset.mem_range.mpr below) outside

/-- The position `-i` modulo the length. -/
def mirror (n i : Nat) : Nat :=
  (n - i) % n

/-- The mirrored position of a mirrored position is the position. -/
theorem mirror_mirror {n i : Nat} (h : i < n) : (n - (n - i) % n) % n = i := by
  rcases Nat.eq_zero_or_pos i with rfl | positive
  · rw [Nat.sub_zero, Nat.mod_self, Nat.sub_zero, Nat.mod_self]
  · rw [Nat.mod_eq_of_lt (by omega : n - i < n), Nat.sub_sub_self h.le, Nat.mod_eq_of_lt h]

/-- Modulo a power of two the mask takes the remainder. -/
theorem mask_eq_mirror (s i : Nat) : (2 ^ s - i) &&& (2 ^ s - 1) = mirror (2 ^ s) i :=
  Nat.and_two_pow_sub_one_eq_mod _ s

/-- Mirroring both factors of an exponent keeps the power. -/
private theorem pow_mirror_mul_mirror {w : R} {n : Nat} (order : w ^ n = 1) {i j : Nat}
    (hi : i < n) (hj : j < n)
    : w ^ ((n - i) % n * ((n - j) % n)) = w ^ (i * j) := by
  have rest : (n - i) % n < n := Nat.mod_lt _ (by omega)
  calc
    w ^ ((n - i) % n * ((n - j) % n)) = (w ^ ((n - j) % n)) ^ ((n - i) % n) := by
      rw [mul_comm, pow_mul]
    _ = ((w ^ (n - 1)) ^ ((n - i) % n)) ^ j := by
      rw [pow_mirror order hj, pow_right_comm]
    _ = (w ^ i) ^ j := by rw [← pow_mirror order rest, mirror_mirror hi]
    _ = w ^ (i * j) := (pow_mul w i j).symm

/-- The transform of mirrored entries is the mirrored transform: the sum is taken in the order of
the mirrored positions.
-/
theorem fourier_of_mirrored {w : R} {n : Nat} (order : w ^ n = 1) {v q : Nat → R}
    (mirrored : ∀ i < n, v i = q ((n - i) % n)) {i : Nat} (below : i < n)
    : fourier w n v i = fourier w n q ((n - i) % n) := by
  have inside : ∀ j ∈ Finset.range n, (n - j) % n ∈ Finset.range n := by
    intro j member
    exact Finset.mem_range.mpr (Nat.mod_lt _ (by omega))
  have back : ∀ j ∈ Finset.range n, (n - (n - j) % n) % n = j := by
    intro j member
    exact mirror_mirror (Finset.mem_range.mp member)
  refine Finset.sum_nbij' (fun j => (n - j) % n) (fun j => (n - j) % n) inside inside back back ?_
  intro j member
  have within := Finset.mem_range.mp member
  rw [mirrored j within, pow_mirror_mul_mirror order below within]

-----------------------------------------------------------------------------------------
-- Lists of values
-----------------------------------------------------------------------------------------

/-- The list holds the values of the polynomial at the first `n` powers of `w`. -/
structure Values (w : R) (n : Nat) (p : R[X]) (image : List R) : Prop where
  length : image.length = n
  value : ∀ i < n, CoeffList.coeff image i = p.eval (w ^ i)

namespace Values

variable {w : R} {n : Nat} {p q r : R[X]} {a b : List R}

/-- The spectrum of a list that is padded to the length holds its values. -/
theorem spectrum (fits : a.length ≤ n)
    : Values w n (toPolynomial a) (spectrum w n (resize n a)) := by
  refine ⟨length_spectrum w n _, ?_⟩
  intro i below
  have small : (toPolynomial (resize n a)).degree < n := by
    simpa using degree_toPolynomial_lt (resize n a)
  have coeffs : CoeffList.coeff (resize n a) = (toPolynomial (resize n a)).coeff :=
    funext fun j => (coeff_toPolynomial _ j).symm
  rw [coeff_spectrum w _ below, coeffs, fourier_coeff small, toPolynomial_resize,
    List.take_of_length_le fits]

/-- Values are combined point by point. -/
theorem zipWith (first : Values w n p a) (second : Values w n q b) {f : R → R → R}
    (combined : ∀ z, r.eval z = f (p.eval z) (q.eval z))
    : Values w n r (List.zipWith f a b) := by
  refine ⟨by rw [List.length_zipWith, first.length, second.length, Nat.min_self], ?_⟩
  intro i below
  rw [coeff_zipWith f (first.length ▸ below) (second.length ▸ below), first.value i below,
    second.value i below, combined]

/-- Values are multiplied point by point. -/
theorem mul (first : Values w n p a) (second : Values w n q b) (factor : R)
    : Values w n (p * q * C factor) (List.zipWith (fun x y => x * y * factor) a b) :=
  first.zipWith second (fun z => by rw [eval_mul, eval_C, eval_mul])

/-- Values at a root of unity, over the length and mirrored, are transformed into the coefficients
of the polynomial that has them.
-/
theorem spectrum_reflect {root : Nat → R} {levels s : Nat} (roots : DyadicRoots root levels)
    (h : s ≤ levels) {factor : R} (inverse : factor * (2 ^ s : Nat) = 1)
    (small : p.degree < (2 ^ s : Nat)) (values : Values (root s) (2 ^ s) (p * C factor) b)
    : toPolynomial (FastAlgebra.spectrum (root s) (2 ^ s) (reflect b)) = p := by
  ext l
  rw [coeff_toPolynomial]
  rcases Nat.lt_or_ge l (2 ^ s) with below | past
  · have mirrored : ∀ i < 2 ^ s, CoeffList.coeff (reflect b) i
        = fourier (root s) (2 ^ s) (fun j => p.coeff j * factor) ((2 ^ s - i) % 2 ^ s) := by
      intro i within
      have rest : (2 ^ s - i) % 2 ^ s < 2 ^ s := Nat.mod_lt _ (Nat.two_pow_pos s)
      rw [coeff_reflect (by rwa [values.length]), values.length, values.value _ rest, eval_mul,
        eval_C, ← fourier_coeff small, fourier, fourier, Finset.sum_mul]
      exact Finset.sum_congr rfl (fun j _ => by ring)
    rw [coeff_spectrum _ _ below, fourier_mirror roots h mirrored below, mul_comm, mul_assoc,
      inverse, mul_one]
  · rw [coeff_of_length_le (by rwa [length_spectrum]),
      coeff_eq_zero_of_degree_lt (small.trans_le (by exact_mod_cast past))]

end Values

-----------------------------------------------------------------------------------------
-- The inverse transform
-----------------------------------------------------------------------------------------

theorem coeff_map {S : Type} [CommRing S] (f : R → S) {a : List R} {i : Nat} (h : i < a.length)
    : CoeffList.coeff (a.map f) i = f (CoeffList.coeff a i) := by
  rw [coeff_eq_getElem (by rwa [List.length_map]), List.getElem_map, coeff_eq_getElem h]

/-- The transform of a list, mirrored and multiplied by a factor. -/
def unspectrum (w : R) (n : Nat) (factor : R) (b : List R) : List R :=
  (reflect (spectrum w n b)).map (· * factor)

@[simp]
theorem length_unspectrum (w : R) (n : Nat) (factor : R) (b : List R)
    : (unspectrum w n factor b).length = n := by
  rw [unspectrum, List.length_map, length_reflect, length_spectrum]

theorem coeff_unspectrum (w : R) {n : Nat} (factor : R) (b : List R) {i : Nat} (h : i < n)
    : CoeffList.coeff (unspectrum w n factor b) i
      = fourier w n (CoeffList.coeff b) ((n - i) % n) * factor := by
  have short : i < (spectrum w n b).length := by rwa [length_spectrum]
  have rest : (n - i) % n < n := Nat.mod_lt _ (by omega)
  rw [unspectrum, coeff_map _ (by rwa [length_reflect]), coeff_reflect short, length_spectrum,
    coeff_spectrum w b rest]

section Inverse

variable {root : Nat → R} {levels s : Nat} {factor : R} {a : List R}

/-- The inverse transform undoes the transform. -/
theorem unspectrum_spectrum (roots : DyadicRoots root levels) (h : s ≤ levels)
    (inverse : factor * (2 ^ s : Nat) = 1) (length : a.length = 2 ^ s)
    : unspectrum (root s) (2 ^ s) factor (spectrum (root s) (2 ^ s) a) = a := by
  apply ext_coeff (by rw [length_unspectrum, length])
  intro i within
  rw [length_unspectrum] at within
  -- The mirrored second transform is the second transform of the mirrored first one.
  have exchanged := fourier_of_mirrored (roots.pow_order h)
    (v := fun j => CoeffList.coeff (spectrum (root s) (2 ^ s) a) ((2 ^ s - j) % 2 ^ s))
    (fun _ _ => rfl) within
  have whole := fourier_mirror roots h
    (v := fun j => CoeffList.coeff (spectrum (root s) (2 ^ s) a) ((2 ^ s - j) % 2 ^ s))
    (fun j _ => coeff_spectrum _ a (Nat.mod_lt _ (Nat.two_pow_pos s))) within
  rw [coeff_unspectrum _ factor _ within, ← exchanged, whole, mul_right_comm,
    mul_comm _ factor, inverse, one_mul]

/-- The transform undoes the inverse transform. -/
theorem spectrum_unspectrum (roots : DyadicRoots root levels) (h : s ≤ levels)
    (inverse : factor * (2 ^ s : Nat) = 1) (length : a.length = 2 ^ s)
    : spectrum (root s) (2 ^ s) (unspectrum (root s) (2 ^ s) factor a) = a := by
  apply ext_coeff (by rw [length_spectrum, length])
  intro i within
  rw [length_spectrum] at within
  have whole := fourier_mirror roots h (q := CoeffList.coeff a)
    (v := fun j => fourier (root s) (2 ^ s) (CoeffList.coeff a) ((2 ^ s - j) % 2 ^ s))
    (fun _ _ => rfl) within
  have scaled : fourier (root s) (2 ^ s)
        (CoeffList.coeff (unspectrum (root s) (2 ^ s) factor a)) i
      = factor * fourier (root s) (2 ^ s)
        (fun j => fourier (root s) (2 ^ s) (CoeffList.coeff a) ((2 ^ s - j) % 2 ^ s)) i := by
    rw [fourier, fourier, Finset.mul_sum]
    apply Finset.sum_congr rfl
    intro j member
    rw [coeff_unspectrum _ factor a (Finset.mem_range.mp member), mul_comm _ factor, mul_assoc]
  rw [coeff_spectrum _ _ within, scaled, whole, ← mul_assoc, inverse, one_mul]

/-- A single entry is its own transform. -/
theorem spectrum_of_length_one (w : R) (single : a.length = 1) : spectrum w 1 a = a := by
  apply ext_coeff (by rw [length_spectrum, single])
  intro i within
  rw [length_spectrum] at within
  obtain rfl : i = 0 := by omega
  rw [coeff_spectrum w a within, fourier, Finset.sum_range_one, Nat.zero_mul, pow_zero, mul_one]

end Inverse

end FastAlgebra
