import StyleRegistry.Proofs.Numeral
import StyleRegistry.Rule.Node

/-! # Hashes told apart

Mixing a byte in can be undone: the prime is odd, so there is a factor that
takes it back to one, and an exclusive or is its own inverse. So two different
states stay different whatever text is mixed into both, and two different bytes
mixed into one state give different states. Hashing a text in two pieces, the
second seeded with the hash of the first, is therefore hashing it whole, except
where the hash of the first is zero: as a seed, zero stands for the offset
basis, and then the two runs never meet again. -/
namespace StyleRegistry.Hash

/-! ## Mixing can be undone -/

/-- The factor that undoes the prime. -/
def primeInverse : UInt32 := 0x359c449b

theorem prime_mul_primeInverse : prime * primeInverse = 1 := by decide

theorem scale_injective {g h : UInt32} (he : scale g = scale h) : g = h := by
  rw [scale_eq_mul, scale_eq_mul] at he
  have hback : g * prime * primeInverse = h * prime * primeInverse := by rw [he]
  rwa [UInt32.mul_assoc, UInt32.mul_assoc, prime_mul_primeInverse, UInt32.mul_one,
    UInt32.mul_one] at hback

theorem mix_injective {g h : UInt32} {b : UInt8} (he : mix g b = mix h b) : g = h :=
  (UInt32.xor_left_inj b.toUInt32).mp (scale_injective he)

theorem byte_of_mix {h : UInt32} {b c : UInt8} (he : mix h b = mix h c) : b = c :=
  UInt8.toUInt32_inj.mp ((UInt32.xor_right_inj h).mp (scale_injective he))

/-- States that differ still differ after a text. -/
theorem foldl_mix_injective {text : Bytes} {g h : UInt32}
    (he : text.foldl mix g = text.foldl mix h) : g = h := by
  induction text generalizing g h with
  | nil => exact he
  | cons b text ih =>
    rw [List.foldl_cons, List.foldl_cons] at he
    exact mix_injective (ih he)

/-! ## Hashing in pieces -/

theorem start_of_ne_zero {seed : UInt32} (h : seed ≠ 0) : start seed = seed := if_neg h

theorem start_eq_self_iff {seed : UInt32} : start seed = seed ↔ seed ≠ 0 := by
  refine ⟨?_, start_of_ne_zero⟩
  rintro he rfl
  exact absurd he (by decide)

theorem hash_append (first second : Bytes) (seed : UInt32) :
    hash (first ++ second) seed = second.foldl mix (hash first seed) := List.foldl_append

/-- The shifts and sums of a step are one product. -/
theorem hash_eq_foldl (text : Bytes) (seed : UInt32) :
    hash text seed = text.foldl (fun h b => (h ^^^ b.toUInt32) * 0x01000193)
      (if seed = 0 then 0x811c9dc5 else seed) := by
  have hmix : mix = fun h b => (h ^^^ b.toUInt32) * 0x01000193 :=
    funext fun h => funext fun b => scale_eq_mul (h ^^^ b.toUInt32)
  rw [hash, hmix, start, offsetBasis]

/-- **In pieces as a whole, but for zero.** A hash is the FNV-1a hash of its
text: an exclusive or and a product with the prime for each byte, from the seed
or, for a zero seed, from the offset basis. The hash of a second text that
starts from that of a first is the hash of both in one just when the hash of
the first is not zero. -/
theorem hash_hash_eq_iff :
    (∀ (text : Bytes) (seed : UInt32), hash text seed =
      text.foldl (fun h b => (h ^^^ b.toUInt32) * 0x01000193)
        (if seed = 0 then 0x811c9dc5 else seed)) ∧
    ∀ (first second : Bytes) (seed : UInt32),
      hash second (hash first seed) = hash (first ++ second) seed ↔ hash first seed ≠ 0 := by
  refine ⟨hash_eq_foldl, fun first second seed => ?_⟩
  rw [hash_append, hash, ← start_eq_self_iff]
  exact ⟨foldl_mix_injective, congrArg (second.foldl mix)⟩

/-- The hash of a text can be zero. -/
example : hash [0xcc, 0x24, 0x31, 0xc4] 0 = 0 := by decide

/-! ## Texts that differ in one byte -/

/-- Two texts of one length that differ at exactly one place. -/
def OneByteApart (first second : Bytes) : Prop :=
  first.length = second.length ∧ ∃! i : Nat, first[i]? ≠ second[i]?

theorem OneByteApart.split {first second : Bytes} (h : OneByteApart first second) :
    ∃ before b c after, b ≠ c ∧ first = before ++ b :: after ∧ second = before ++ c :: after := by
  obtain ⟨hlen, i, hi, hother⟩ := h
  have hsame : ∀ j, j ≠ i → first[j]? = second[j]? := fun j hj =>
    Classical.byContradiction fun hne => hj (hother j hne)
  have hf : i < first.length := by
    refine Nat.lt_of_not_le fun hle => hi ?_
    rw [List.getElem?_eq_none hle, List.getElem?_eq_none (hlen ▸ hle)]
  have hs : i < second.length := hlen ▸ hf
  have hbefore : first.take i = second.take i := by
    refine List.ext_getElem? fun j => ?_
    rw [List.getElem?_take, List.getElem?_take]
    split
    · rename_i hj
      exact hsame j (Nat.ne_of_lt hj)
    · rfl
  have hafter : first.drop (i + 1) = second.drop (i + 1) := by
    refine List.ext_getElem? fun j => ?_
    rw [List.getElem?_drop, List.getElem?_drop]
    exact hsame _ (by omega)
  refine ⟨first.take i, first[i], second[i], first.drop (i + 1), ?_, ?_, ?_⟩
  · intro he
    exact hi (by rw [List.getElem?_eq_getElem hf, List.getElem?_eq_getElem hs, he])
  · rw [← List.drop_eq_getElem_cons hf, List.take_append_drop]
  · rw [hbefore, hafter, ← List.drop_eq_getElem_cons hs, List.take_append_drop]

theorem OneByteApart.hash_ne {first second : Bytes} (h : OneByteApart first second)
    (seed : UInt32) : hash first seed ≠ hash second seed := by
  obtain ⟨before, b, c, after, hne, rfl, rfl⟩ := h.split
  rw [hash_append, hash_append, List.foldl_cons, List.foldl_cons]
  intro he
  exact hne (byte_of_mix (foldl_mix_injective he))

theorem OneByteApart.nameOf_ne {first second : Bytes} (h : OneByteApart first second) :
    nameOf first ≠ nameOf second := fun he => h.hash_ne 0 (text_injective he)

theorem hash_ne_of_seeds {s t : UInt32} (hs : s ≠ 0) (ht : t ≠ 0) (hne : s ≠ t) (text : Bytes) :
    hash text s ≠ hash text t := by
  rw [hash, hash, start_of_ne_zero hs, start_of_ne_zero ht]
  exact fun he => hne (foldl_mix_injective he)

theorem OneByteApart.key_ne {first second : Node} (h : OneByteApart first.text second.text) :
    first.key ≠ second.key := by
  cases first with
  | style declarations selectors =>
    cases second with
    | style declarations' selectors' =>
      exact fun he => h.nameOf_ne (List.append_cancel_left he)
    | atRule rule body => exact fun he => absurd (List.cons.inj he).1 (by decide)
  | atRule rule body =>
    cases second with
    | style declarations selectors => exact fun he => absurd (List.cons.inj he).1 (by decide)
    | atRule rule' body' => exact fun he => h.nameOf_ne (List.append_cancel_left he)

/-- **One byte makes another hash.** From any seed, two texts that differ in
exactly one byte have different hashes, and so have one text from two seeds,
neither of them zero. The numeral of a hash names no other, so two style nodes,
two at-rules or two selectors whose texts differ in one byte have two keys. -/
theorem hashes_told_apart :
    (∀ (seed : UInt32) (first second : Bytes),
      OneByteApart first second → hash first seed ≠ hash second seed) ∧
    (∀ (text : Bytes) (s t : UInt32), s ≠ 0 → t ≠ 0 → s ≠ t → hash text s ≠ hash text t) ∧
    (∀ first second : Node, OneByteApart first.text second.text → first.key ≠ second.key) ∧
    ∀ first second : Selector, OneByteApart first.text second.text →
      Keyed.key first ≠ Keyed.key second :=
  ⟨fun seed _ _ h => h.hash_ne seed, fun text _ _ hs ht hne => hash_ne_of_seeds hs ht hne text,
    fun _ _ h => h.key_ne, fun _ _ h he => h.nameOf_ne (List.append_cancel_left he)⟩

/-- Two declarations that differ in their last letter. -/
theorem hashes_told_apart_of_units :
    let first := Bytes.ascii "margin:1em;"
    let second := Bytes.ascii "margin:1ex;"
    OneByteApart first second ∧ hash first 7 ≠ hash second 7 ∧ hash first 7 ≠ hash first 8 ∧
      (Node.fresh first).key ≠ (Node.fresh second).key ∧
      (Node.freshAtRule first).key ≠ (Node.freshAtRule second).key ∧
      Keyed.key (Selector.mk first) ≠ Keyed.key (Selector.mk second) := by
  intro first second
  have hapart : OneByteApart first second := by
    refine ⟨by decide, 9, by decide, fun i hi => ?_⟩
    by_contra hne
    have hlt : i < 11 := by
      refine Nat.lt_of_not_le fun hle => hi ?_
      rw [List.getElem?_eq_none hle, List.getElem?_eq_none hle]
    exact hi ((by decide : ∀ i < 11, i ≠ 9 → first[i]? = second[i]?) i hlt hne)
  obtain ⟨htexts, hseeds, hnodes, hselectors⟩ := hashes_told_apart
  exact ⟨hapart, htexts 7 _ _ hapart, hseeds _ 7 8 (by decide) (by decide) (by decide),
    hnodes _ _ hapart, hnodes _ _ hapart, hselectors _ _ hapart⟩

end StyleRegistry.Hash
