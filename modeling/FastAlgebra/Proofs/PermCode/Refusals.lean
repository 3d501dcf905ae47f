import Mathlib
import FastAlgebra.Proofs.PermCode.Mask

/-! What has no code, and what is no code. A list of entries is a permutation exactly where no
position offends, and the walk over the entries stops at the first position that does. What is left
of a number after the radices are divided out is zero exactly below the factorial. Masks refuse the
same.
-/

namespace FastAlgebra.PermCode

-----------------------------------------------------------------------------------------
-- Positions that offend
-----------------------------------------------------------------------------------------

/-- The entry at a position is not below the length, or it stands at an earlier position as well. -/
def OffendsAt (perm : List Nat) (position : Nat) : Prop :=
  ∃ value, perm[position]? = some value ∧ (perm.length ≤ value ∨ value ∈ perm.take position)

/-- How an entry offends. One that is too large is not looked for among the earlier ones. -/
def offence (length value : Nat) : PermCodeError :=
  if length ≤ value then .outOfRange value length else .repeated value

theorem offence_ne_tooLong (length value other : Nat) : offence length value ≠ .tooLong other := by
  rw [offence]
  split <;> exact nofun

theorem perm_range_iff (perm : List Nat)
    : perm.Perm (List.range perm.length) ↔ perm.Nodup ∧ ∀ value ∈ perm, value < perm.length := by
  constructor
  · intro permutes
    exact ⟨permutes.nodup_iff.mpr List.nodup_range,
      fun value member => List.mem_range.mp (permutes.subset member)⟩
  · rintro ⟨nodup, below⟩
    have inside : perm ⊆ List.range perm.length :=
      fun value member => List.mem_range.mpr (below value member)
    apply (nodup.subperm inside).perm_of_length_le
    rw [List.length_range]

/-- Entries before which no position offends are different and below the length. -/
theorem nodup_take_of_not_offendsAt {perm : List Nat} {n : Nat}
    (clean : ∀ position < n, ¬ OffendsAt perm position)
    : (perm.take n).Nodup ∧ ∀ value ∈ perm.take n, value < perm.length := by
  constructor
  · rw [List.nodup_iff_getElem?_ne_getElem?]
    intro earlier later before inside same
    have within : later < n ∧ later < perm.length := by
      rw [List.length_take] at inside
      omega
    have found := List.getElem?_eq_getElem within.2
    rw [List.getElem?_take_of_lt (before.trans within.1), List.getElem?_take_of_lt within.1,
      found] at same
    refine clean later within.1 ⟨perm[later], found, .inr (List.mem_iff_getElem?.mpr ⟨earlier, ?_⟩)⟩
    rw [List.getElem?_take_of_lt before, same]
  · intro value member
    obtain ⟨position, inside, rfl⟩ := List.mem_take_iff_getElem.mp member
    have within : position < n ∧ position < perm.length := Nat.lt_min.mp inside
    have found := List.getElem?_eq_getElem within.2
    by_contra large
    exact clean position within.1 ⟨_, found, .inl (Nat.le_of_not_lt large)⟩

/-- A list is a permutation unless some position offends. -/
theorem perm_range_or_exists_offendsAt (perm : List Nat)
    : perm.Perm (List.range perm.length) ∨ ∃ position, OffendsAt perm position := by
  by_contra neither
  obtain ⟨other, clean⟩ := not_or.mp neither
  obtain ⟨nodup, below⟩ := nodup_take_of_not_offendsAt (n := perm.length)
    fun position _ offends => clean ⟨position, offends⟩
  rw [List.take_length] at nodup below
  exact other ((perm_range_iff perm).mpr ⟨nodup, below⟩)

-----------------------------------------------------------------------------------------
-- The walk over the entries
-----------------------------------------------------------------------------------------

/-- The walk passes the entries that do not offend and stops at the one that does, by induction on
the entries that it passes.
-/
theorem encodeFrom_append_eq {length : Nat} {seen before rest : List Nat} {code : UInt64}
    {value : Nat}
    (nodup : (before.reverse ++ seen).Nodup) (below : ∀ entry ∈ before, entry < length)
    (offends : length ≤ value ∨ value ∈ before.reverse ++ seen)
    : encodeFrom length seen code (before ++ value :: rest) = .error (offence length value) := by
  induction before generalizing seen code with
  | nil =>
      rw [List.reverse_nil, List.nil_append] at offends
      rw [List.nil_append, encodeFrom, offence]
      split
      · rfl
      · rename_i inside
        rw [if_pos (offends.resolve_left inside)]
  | cons entry before ih =>
      rw [List.reverse_cons, List.append_assoc, List.singleton_append] at nodup offends
      have inside : ¬ length ≤ entry := Nat.not_le_of_gt (below entry List.mem_cons_self)
      have new : entry ∉ seen := (List.nodup_cons.mp (List.nodup_append.mp nodup).2.1).1
      rw [List.cons_append, encodeFrom, if_neg inside, if_neg new]
      exact ih nodup (fun other member => below other (List.mem_cons_of_mem _ member)) offends

/-- A list that is not too long is refused for the first position that offends. -/
theorem encode_eq_error {perm : List Nat} (short : perm.length ≤ maxLength) {position : Nat}
    (first : IsLeast {position | OffendsAt perm position} position)
    : ∃ value, perm[position]? = some value ∧ encode perm = .error (offence perm.length value) := by
  obtain ⟨⟨value, found, offends⟩, least⟩ := first
  obtain ⟨nodup, below⟩ := nodup_take_of_not_offendsAt fun earlier before other =>
    (least other).not_gt before
  obtain ⟨inside, rfl⟩ := List.getElem?_eq_some_iff.mp found
  refine ⟨_, found, ?_⟩
  have walk := @encodeFrom_append_eq perm.length [] _ (perm.drop (position + 1)) 0 _
    (by rwa [List.append_nil, List.nodup_reverse]) below
    (by rwa [List.append_nil, List.mem_reverse])
  rw [← List.drop_eq_getElem_cons inside, List.take_append_drop] at walk
  rw [encode, if_neg (Nat.not_lt_of_le short), walk]

/-- What is no permutation has a first position that offends. -/
theorem exists_first_offendsAt {perm : List Nat} (other : ¬ perm.Perm (List.range perm.length))
    : ∃ position, IsLeast {position | OffendsAt perm position} position := by
  classical
  have some := (perm_range_or_exists_offendsAt perm).resolve_left other
  exact ⟨Nat.find some, Nat.find_spec some, fun _ offends => Nat.find_min' some offends⟩

/-- Lists that are not too long are refused for an entry or not at all. -/
theorem encode_ne_tooLong {perm : List Nat} (short : perm.length ≤ maxLength) (length : Nat)
    : encode perm ≠ .error (.tooLong length) := by
  by_cases permutes : perm.Perm (List.range perm.length)
  · obtain ⟨code, encoded, _⟩ := exists_encode_eq short permutes
    rw [encoded]
    exact nofun
  · obtain ⟨position, first⟩ := exists_first_offendsAt permutes
    obtain ⟨value, _, refused⟩ := encode_eq_error short first
    rw [refused]
    exact fun same => offence_ne_tooLong _ _ _ (Except.error.inj same)

theorem encode_eq_tooLong_iff (perm : List Nat)
    : encode perm = .error (.tooLong perm.length) ↔ maxLength < perm.length := by
  constructor
  · intro refused
    by_contra short
    exact encode_ne_tooLong (Nat.le_of_not_lt short) _ refused
  · intro long
    rw [encode, if_pos long]

/-- Among the lists that are not too long, exactly the permutations have a code. -/
theorem exists_encode_eq_iff {perm : List Nat} (short : perm.length ≤ maxLength)
    : (∃ code, encode perm = .ok code) ↔ perm.Perm (List.range perm.length) := by
  constructor
  · rintro ⟨code, encoded⟩
    by_contra other
    obtain ⟨position, first⟩ := exists_first_offendsAt other
    obtain ⟨value, _, refused⟩ := encode_eq_error short first
    exact nomatch encoded.symm.trans refused
  · intro permutes
    obtain ⟨code, encoded, _⟩ := exists_encode_eq short permutes
    exact ⟨code, encoded⟩

-----------------------------------------------------------------------------------------
-- Numbers
-----------------------------------------------------------------------------------------

/-- A number from the factorial on leaves something when the radices are divided out. -/
theorem decode_eq_error {length : Nat} (short : length ≤ maxLength) {code : UInt64}
    (large : length.factorial ≤ code.toNat)
    : decode code length = .error (.codeOutOfRange code length) := by
  have some : (digits code length).2 ≠ 0 :=
    fun none => large.not_gt ((digits_snd_eq_zero_iff short code).mp none)
  rw [decode, if_neg (Nat.not_lt_of_le short)]
  exact if_pos some

theorem decode_eq_tooLong_iff (code : UInt64) (length : Nat)
    : decode code length = .error (.tooLong length) ↔ maxLength < length := by
  constructor
  · intro refused
    by_contra short
    have short := Nat.le_of_not_lt short
    rcases Nat.lt_or_ge code.toNat length.factorial with below | large
    · exact nomatch refused.symm.trans (decode_eq short below)
    · exact nomatch refused.symm.trans (decode_eq_error short large)
  · intro long
    rw [decode, if_pos long]

/-- Among the numbers for a length that is not too long, exactly those from the factorial on are
refused.
-/
theorem decode_cases {length : Nat} (short : length ≤ maxLength) (code : UInt64)
    : (decode code length = .error (.codeOutOfRange code length) ↔ length.factorial ≤ code.toNat)
      ∧ ((∃ perm, decode code length = .ok perm) ↔ code.toNat < length.factorial) := by
  rcases Nat.lt_or_ge code.toNat length.factorial with below | large
  · have decoded := decode_eq short below
    rw [decoded]
    exact ⟨iff_of_false nofun below.not_ge, iff_of_true ⟨_, rfl⟩ below⟩
  · rw [decode_eq_error short large]
    exact ⟨iff_of_true rfl large, iff_of_false (fun ⟨_, found⟩ => nomatch found) large.not_gt⟩

-----------------------------------------------------------------------------------------
-- All inputs
-----------------------------------------------------------------------------------------

/-- Every list and every number is decided. A list is refused as too long, or has a code if it is a
permutation, or is refused for its first position that offends. A number is refused for a length
that is too long, or for reaching the factorial. The runs on masks decide the same, so they never
leave the word: no value is the amount of a shift before it is known to be below the length.
-/
theorem encode_decode_decided
    : (∀ perm : List Nat,
          (encode perm = .error (.tooLong perm.length) ↔ 20 < perm.length)
          ∧ (perm.length ≤ 20 →
              ((∃ code, encode perm = .ok code) ↔ perm.Perm (List.range perm.length)))
          ∧ (perm.length ≤ 20 → ¬ perm.Perm (List.range perm.length) →
              ∃ position value,
                IsLeast {position | OffendsAt perm position} position
                ∧ perm[position]? = some value
                ∧ encode perm
                  = .error
                    (if perm.length ≤ value then .outOfRange value perm.length
                      else .repeated value))
          ∧ encodeByMask perm = (encode perm).mapError .refused)
      ∧ ∀ (code : UInt64) (length : Nat),
          (decode code length = .error (.tooLong length) ↔ 20 < length)
          ∧ (length ≤ 20 →
              (decode code length = .error (.codeOutOfRange code length)
                  ↔ length.factorial ≤ code.toNat)
              ∧ ((∃ perm, decode code length = .ok perm) ↔ code.toNat < length.factorial))
          ∧ decodeByMask code length = (decode code length).mapError .refused := by
  constructor
  · intro perm
    refine ⟨encode_eq_tooLong_iff perm, fun short => exists_encode_eq_iff short, ?_,
      encodeByMask_eq perm⟩
    intro short other
    obtain ⟨position, first⟩ := exists_first_offendsAt other
    obtain ⟨value, found, refused⟩ := encode_eq_error short first
    exact ⟨position, value, first, found, refused⟩
  · intro code length
    exact ⟨decode_eq_tooLong_iff code length, fun short => decode_cases short code,
      decodeByMask_eq code length⟩

theorem encode_decode_decided_three
    : ¬ [0, 2, 2].Perm (List.range 3)
      ∧ (∃ position value,
          IsLeast {position | OffendsAt [0, 2, 2] position} position
          ∧ encode [0, 2, 2] = .error (if 3 ≤ value then .outOfRange value 3 else .repeated value))
      ∧ (∃ code, encode [2, 0, 1] = .ok code)
      ∧ decode 6 3 = .error (.codeOutOfRange 6 3)
      ∧ decodeByMask 0 21 = .error (.refused (.tooLong 21)) := by
  obtain ⟨lists, numbers⟩ := encode_decode_decided
  have other : ¬ [0, 2, 2].Perm (List.range 3) := by decide
  obtain ⟨_, _, refused, _⟩ := lists [0, 2, 2]
  obtain ⟨position, value, first, _, found⟩ := refused (by decide) other
  obtain ⟨_, encoded, _⟩ := lists [2, 0, 1]
  obtain ⟨_, decoded, _⟩ := numbers 6 3
  obtain ⟨long, _, masks⟩ := numbers 0 21
  rw [long.mpr (by decide)] at masks
  exact ⟨other, ⟨position, value, first, found⟩, (encoded (by decide)).mpr (by decide),
    (decoded (by decide)).1.mpr (by decide), masks⟩

end FastAlgebra.PermCode
