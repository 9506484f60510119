import KirinFS.Dict.Inserts
import KirinFS.Foundation.Bytes
import KirinFS.Foundation.CString
import KirinFS.Hash.Crc32

/-! # Keys at addresses

The hash callback gets the item of a key and not the string behind it. Its
first bytes are those of the pointer.
-/

namespace KirinFS.Dict
open Foundation.Bytes Foundation.CString Foundation.Crc Function Hash

/-- The pointer in an item and the string it points to. -/
structure Located where
  addr : BitVec 64
  text : Str

def itemSize : ℕ := 16

def itemBytes (item : StlDictItem Located) : List UInt8 :=
  toBytes 8 item.data.addr.toNat ++ toBytes 4 item.dataType.toNat ++ toBytes 4 item.len.toNat

/-- The calls `dict->hash(key, key->len)` that read bytes of the item only. -/
def InItem (item : StlDictItem Located) : Prop := item.len.toNat ≤ itemSize

/-- `dict->hash` is `stl_hash_crc32a`. What it returns after reading past an item is open. -/
def UsesCrc32a (d : StlDict Located) : Prop :=
  ∀ item, InItem item → d.hash item item.len =
    stlHashCrc32a ((itemBytes item).take item.len.toNat)

def strKey (addr : BitVec 64) (text : Str) (len : BitVec 32) : StlDictItem Located :=
  ⟨⟨addr, text⟩, 3, len⟩

/-- Keys are compared by their strings, which the stored copies keep. -/
structure ByText (cmp : StlDictItem Located → StlDictItem Located → ℤ) (copy : PairCopy Located) :
    Prop where
  same : ∀ a b, a.data.text = b.data.text → cmp a b = 0
  copied : ∀ key value, (copy key value).1.data.text = key.data.text

section Reached
variable {P : Type}

/-- The dicts of all runs. Each pair may be copied in its own way. -/
inductive Reached : StlDict P → Prop where
  | init {size : BitVec 32} {cmp : StlDictItem P → StlDictItem P → ℤ}
    {hash : StlDictItem P → BitVec 32 → BitVec 32} {d : StlDict P}
    (h : stlDictInit size cmp hash = some d) : Reached d
  | insert {d d' : StlDict P} {copy : PairCopy P} {key value : StlDictItem P} {r : ℤ}
    (hd : Reached d) (h : d.stlDictInsert copy key value = some (d', r)) : Reached d'
  | delete {d d' : StlDict P} {key : StlDictItem P} {r : ℤ}
    (hd : Reached d) (h : d.stlDictDelete key = some (d', r)) : Reached d'

/-- Links only lead to addresses that have been handed out. -/
structure Closed (d : StlDict P) : Prop where
  maxCount : d.maxCount = dictInitSize
  capacity : dictInitSize ≤ d.capacity
  buckets : ∀ i, ∀ n ∈ d.buckets i, n < d.fresh
  heap : ∀ n, ∀ x ∈ d.heap n, ∀ q ∈ x.next, q < d.fresh

variable {d d' : StlDict P} {copy : PairCopy P} {key value : StlDictItem P} {i : ℕ}

theorem Closed.index_eq (h : Closed d) (key : StlDictItem P) :
    d.index key = some ((d.hash key key.len).toNat % dictInitSize) := by
  rw [StlDict.index, h.maxCount, if_neg (by decide)]

theorem Closed.bucket_eq (h : Closed d) (hi : i < dictInitSize) :
    d.bucket i = some (d.buckets i) :=
  if_pos (Nat.lt_of_lt_of_le hi h.capacity)

def StlDict.prepended (d : StlDict P) (copy : PairCopy P) (key value : StlDictItem P) (i : ℕ) :
    StlDict P :=
  { d with
    heap := update d.heap d.fresh (some ⟨(copy key value).1, (copy key value).2, d.buckets i⟩)
    fresh := d.fresh + 1
    buckets := update d.buckets i (some d.fresh)
    count := d.count + 1 }

theorem Closed.insert_eq (h : Closed d) (copy : PairCopy P)
    (hk : stlDictItemCheckType key = true) (hv : stlDictItemCheckType value = true)
    (hi : d.index key = some i) (hlt : i < dictInitSize) :
    d.stlDictInsert copy key value = some (d.prepended copy key value i, 0) := by
  have hset := Nat.lt_of_lt_of_le hlt h.capacity
  simp [StlDict.stlDictInsert, hk, hv, hi, StlDict.stlDictItemPairInsert, h.bucket_eq hlt,
    StlDict.setBucket, hset, StlDict.prepended]

theorem Closed.prepended (h : Closed d) (i : ℕ) : Closed (d.prepended copy key value i) where
  maxCount := h.maxCount
  capacity := h.capacity
  buckets := by
    intro j n hn
    by_cases hji : j = i
    · subst hji
      obtain rfl : d.fresh = n := by simpa [StlDict.prepended] using hn
      exact Nat.lt_succ_self _
    · refine Nat.lt_succ_of_lt (h.buckets j n ?_)
      simpa [StlDict.prepended, update_of_ne hji] using hn
  heap := by
    intro n x hx q hq
    by_cases hn : n = d.fresh
    · subst hn
      simp only [StlDict.prepended, update_self, Option.mem_some_iff] at hx
      subst hx
      exact Nat.lt_succ_of_lt (h.buckets i q hq)
    · simp only [StlDict.prepended, update_of_ne hn] at hx
      exact Nat.lt_succ_of_lt (h.heap n x hx q hq)

theorem delete_cases {r : ℤ} (h : d.stlDictDelete key = some (d', r)) :
    d' = d ∨ ∃ n x prev i d₁, d.heap n = some x ∧ d.unlinkPair i prev x = some d₁ ∧
      d' = { d₁ with count := d₁.count - 1, heap := update d₁.heap n none } := by
  rw [StlDict.stlDictDelete] at h
  split at h
  · obtain ⟨i, -, h⟩ := Option.bind_eq_some_iff.mp h
    rw [StlDict.stlDictItemPairDelete] at h
    obtain ⟨head, -, h⟩ := Option.bind_eq_some_iff.mp h
    obtain ⟨⟨prev, pair⟩, -, h⟩ := Option.bind_eq_some_iff.mp h
    cases pair with
    | none =>
      cases h
      exact Or.inl rfl
    | some n =>
      obtain ⟨x, hx, h⟩ := Option.bind_eq_some_iff.mp h
      obtain ⟨d₁, hd₁, h⟩ := Option.bind_eq_some_iff.mp h
      cases h
      exact Or.inr ⟨n, x, prev, i, d₁, hx, hd₁, rfl⟩
  · cases h
    exact Or.inl rfl

theorem Closed.unlinkPair (h : Closed d) {n : ℕ} {x : StlDictItemPair P} (hx : d.heap n = some x)
    {prev : Option ℕ} (hun : d.unlinkPair i prev x = some d') : Closed d' := by
  cases prev with
  | none =>
    rw [StlDict.unlinkPair, StlDict.setBucket] at hun
    split at hun
    · cases hun
      refine ⟨h.maxCount, h.capacity, ?_, h.heap⟩
      intro j m hm
      by_cases hji : j = i
      · subst hji
        simp at hm
      · exact h.buckets j m (by simpa [update_of_ne hji] using hm)
    · cases hun
  | some m =>
    obtain ⟨y, hy, rfl⟩ := Option.map_eq_some_iff.mp hun
    refine ⟨h.maxCount, h.capacity, h.buckets, ?_⟩
    intro k z hz q hq
    by_cases hkm : k = m
    · subst hkm
      simp only [update_self, Option.mem_some_iff] at hz
      subst hz
      exact h.heap n x hx q hq
    · exact h.heap k z (by simpa [update_of_ne hkm] using hz) q hq

theorem Closed.delete (h : Closed d) {r : ℤ} (hdel : d.stlDictDelete key = some (d', r)) :
    Closed d' := by
  obtain rfl | ⟨n, x, prev, i, d₁, hx, hun, rfl⟩ := delete_cases hdel
  · exact h
  · have h₁ := h.unlinkPair hx hun
    refine ⟨h₁.maxCount, h₁.capacity, h₁.buckets, ?_⟩
    intro k z hz q hq
    by_cases hkn : k = n
    · subst hkn
      simp at hz
    · exact h₁.heap k z (by simpa [update_of_ne hkn] using hz) q hq

theorem Closed.insert (h : Closed d) {r : ℤ}
    (hins : d.stlDictInsert copy key value = some (d', r)) : Closed d' := by
  by_cases ht : (stlDictItemCheckType key && stlDictItemCheckType value) = true
  · obtain ⟨hk, hv⟩ := (Bool.and_eq_true _ _).mp ht
    rw [h.insert_eq copy hk hv (h.index_eq key) (Nat.mod_lt _ (by decide))] at hins
    cases hins
    exact h.prepended _
  · rw [StlDict.stlDictInsert, if_neg ht] at hins
    cases hins
    exact h

theorem Reached.closed (h : Reached d) : Closed d := by
  induction h with
  | init h =>
    obtain ⟨hlay, -⟩ := init_layout h
    rw [stlDictInit] at h
    split at h
    · cases h
    · cases h
      exact ⟨rfl, hlay.capacity, by simp, by simp⟩
  | insert _ h ih => exact ih.insert h
  | delete _ h ih => exact ih.delete h

/-- A walk from older links never meets the next address. -/
theorem lookupFrom_older (h : Closed d) {key' : StlDictItem P} {fuel : ℕ} {p : Option ℕ}
    (hp : ∀ n ∈ p, n < d.fresh) {e : ℕ × StlDictItem P}
    (hlook : (d.prepended copy key value i).lookupFrom key' fuel p = some (some e)) :
    e.1 < d.fresh := by
  induction fuel generalizing p with
  | zero => cases hlook
  | succ fuel ih =>
    cases p with
    | none => cases hlook
    | some n =>
      have hn := hp n rfl
      have hsame : (d.prepended copy key value i).heap n = d.heap n :=
        update_of_ne (Nat.ne_of_lt hn) _ _
      rw [StlDict.lookupFrom, hsame] at hlook
      obtain ⟨x, hx, hlook⟩ := Option.bind_eq_some_iff.mp hlook
      split at hlook
      · cases hlook
        exact hn
      · exact ih (h.heap n x hx) hlook

/-- The new pair is at the head of its chain, so only the bucket matters. -/
theorem Closed.found_iff (h : Closed d) (hk : stlDictItemCheckType key = true)
    (hv : stlDictItemCheckType value = true) {key' : StlDictItem P}
    (hk' : stlDictItemCheckType key' = true) (hcmp : d.cmp (copy key value).1 key' = 0) :
    (∃ d', d.stlDictInsert copy key value = some (d', 0) ∧
      d'.stlDictLookup key' = some (some (d.fresh, (copy key value).2)) ∧
      ∃ d'', d'.stlDictDelete key' = some (d'', 0) ∧ d''.heap d.fresh = none) ↔
        d.index key = d.index key' := by
  have hlt : (d.hash key key.len).toNat % dictInitSize < dictInitSize := Nat.mod_lt _ (by decide)
  have hlt' : (d.hash key' key'.len).toNat % dictInitSize < dictInitSize :=
    Nat.mod_lt _ (by decide)
  have hi := h.index_eq key
  have hi' := h.index_eq key'
  generalize (d.hash key key.len).toNat % dictInitSize = i at hlt hi
  generalize (d.hash key' key'.len).toNat % dictInitSize = j at hlt' hi'
  have hins := h.insert_eq copy hk hv hi hlt
  have h₁ : Closed (d.prepended copy key value i) := h.prepended i
  have hj : (d.prepended copy key value i).index key' = some j := hi'
  have hbucket := h₁.bucket_eq hlt'
  rw [hi, hi', Option.some.injEq]
  constructor
  · rintro ⟨d', hd', hlook, -⟩
    obtain ⟨rfl, -⟩ := Prod.mk.inj (Option.some.inj (hins.symm.trans hd'))
    by_contra hij
    rw [StlDict.stlDictLookup, if_pos hk', hj, Option.bind_some, hbucket, Option.bind_some] at hlook
    have hold := lookupFrom_older h (p := (d.prepended copy key value i).buckets j) ?_ hlook
    · exact Nat.lt_irrefl _ hold
    · intro n hn
      refine h.buckets j n ?_
      simpa [StlDict.prepended, update_of_ne (Ne.symm hij)] using hn
  · rintro rfl
    have hhead : (d.prepended copy key value i).buckets i = some d.fresh := update_self _ _ _
    have hpair : (d.prepended copy key value i).heap d.fresh =
        some ⟨(copy key value).1, (copy key value).2, d.buckets i⟩ := update_self _ _ _
    have hhit : (d.prepended copy key value i).cmp (copy key value).1 key' = 0 := hcmp
    have hset : i < (d.prepended copy key value i).capacity :=
      Nat.lt_of_lt_of_le hlt h.capacity
    refine ⟨_, hins, ?_, ?_⟩
    · rw [StlDict.stlDictLookup, if_pos hk', hj, Option.bind_some, hbucket, Option.bind_some, hhead]
      simp [StlDict.lookupFrom, hpair, hhit]
    · refine ⟨{ d.prepended copy key value i with
        buckets := update (d.prepended copy key value i).buckets i none
        heap := update (d.prepended copy key value i).heap d.fresh none
        count := (d.prepended copy key value i).count - 1 }, ?_, update_self _ _ _⟩
      rw [StlDict.stlDictDelete, if_pos hk', hj, Option.bind_some,
        StlDict.stlDictItemPairDelete, hbucket]
      simp [StlDict.findFrom, hhead, hpair, hhit, StlDict.unlinkPair, StlDict.setBucket, hset]

end Reached

section Addresses
variable {d : StlDict Located} {copy : PairCopy Located} {a a' : BitVec 64} {text : Str}
  {len : BitVec 32}

theorem toBytes_xor (k m n : ℕ) :
    List.zipWith (· ^^^ ·) (toBytes k m) (toBytes k n) = toBytes k (m ^^^ n) := by
  induction k generalizing m n with
  | zero => rfl
  | succ k ih =>
    have hdiv : (m ^^^ n) / 256 = m / 256 ^^^ n / 256 := Nat.xor_div_two_pow (n := 8)
    rw [toBytes, toBytes, toBytes, List.zipWith_cons_cons, ih, hdiv]
    rw [UInt8.ofNat_xor]

theorem zipWith_xor_self (l : List UInt8) :
    List.zipWith (· ^^^ ·) l l = List.replicate l.length 0 := by
  induction l with
  | nil => rfl
  | cons b l ih => rw [List.zipWith_cons_cons, ih, UInt8.xor_self, List.length_cons,
      List.replicate_succ]

theorem mod_eq_iff_xor (m n : ℕ) : m % 64 = n % 64 ↔ (m ^^^ n) % 64 = 0 := by
  have hmod : (m ^^^ n) % 64 = m % 64 ^^^ n % 64 := Nat.xor_mod_two_pow (n := 6)
  rw [hmod, Nat.xor_eq_zero_iff]

/-- The bytes in which two keys of one content differ, as far as the hash reads them. -/
def addrDiff (a a' : BitVec 64) (len : BitVec 32) : List UInt8 :=
  (toBytes 8 (a ^^^ a').toNat ++ List.replicate 8 0).take len.toNat

theorem itemBytes_length (item : StlDictItem Located) : (itemBytes item).length = itemSize := by
  simp [itemBytes, itemSize]

theorem zipWith_itemBytes (a a' : BitVec 64) (text : Str) (len : BitVec 32) :
    List.zipWith (· ^^^ ·) ((itemBytes (strKey a text len)).take len.toNat)
      ((itemBytes (strKey a' text len)).take len.toNat) = addrDiff a a' len := by
  rw [← List.take_zipWith, addrDiff, itemBytes, itemBytes, List.append_assoc, List.append_assoc,
    List.zipWith_append (by simp), toBytes_xor, BitVec.toNat_xor]
  congr 2
  rw [strKey, strKey, zipWith_xor_self]
  simp

/-- Both hashes are remainders by 64 of checks that differ in the addresses only. -/
theorem hash_congr_iff (hcrc : UsesCrc32a d) (hin : len.toNat ≤ itemSize) :
    (d.hash (strKey a text len) len).toNat % dictInitSize =
        (d.hash (strKey a' text len) len).toNat % dictInitSize ↔
      (absorb crc32Poly 0 (addrDiff a a' len)).toNat % dictInitSize = 0 := by
  have hlen : ((itemBytes (strKey a text len)).take len.toNat).length =
      ((itemBytes (strKey a' text len)).take len.toNat).length := by
    rw [List.length_take, List.length_take, itemBytes_length, itemBytes_length]
  have hdiff := stlHashCrc32a_xor hlen
  rw [zipWith_itemBytes] at hdiff
  have hfirst := hcrc (strKey a text len) hin
  have hsecond := hcrc (strKey a' text len) hin
  simp only [strKey] at hfirst hsecond hdiff ⊢
  rw [hfirst, hsecond, ← hdiff, BitVec.toNat_xor]
  exact mod_eq_iff_xor _ _

/-- `value`, inserted under `key`, is found and removed under `key'`, and the hash only reads the
two items. -/
def FoundUnder (d : StlDict Located) (copy : PairCopy Located)
    (key key' value : StlDictItem Located) : Prop :=
  InItem key ∧ InItem key' ∧ ∃ d', d.stlDictInsert copy key value = some (d', 0) ∧
    d'.stlDictLookup key' = some (some (d.fresh, (copy key value).2)) ∧
    ∃ d'', d'.stlDictDelete key' = some (d'', 0) ∧ d''.heap d.fresh = none

/-- The hash only reads the two items and gives one bucket. -/
def SameBucket (d : StlDict Located) (key key' : StlDictItem Located) : Prop :=
  InItem key ∧ InItem key' ∧ d.index key = d.index key'

/-- The addresses do not matter when the check of their difference is a multiple of 64, up to the
length at which the hash reads past the items. -/
theorem found_under_iff (hd : Reached d) (hcrc : UsesCrc32a d) (htext : ByText d.cmp copy)
    (a a' : BitVec 64) (text : Str) (len : BitVec 32) {value : StlDictItem Located}
    (hv : stlDictItemCheckType value = true) :
    (SameBucket d (strKey a text len) (strKey a' text len) ↔ len.toNat ≤ itemSize ∧
      (absorb crc32Poly 0 (addrDiff a a' len)).toNat % dictInitSize = 0) ∧
    (FoundUnder d copy (strKey a text len) (strKey a' text len) value ↔ len.toNat ≤ itemSize ∧
      (absorb crc32Poly 0 (addrDiff a a' len)).toNat % dictInitSize = 0) := by
  have hclosed := hd.closed
  have hcmp : d.cmp (copy (strKey a text len) value).1 (strKey a' text len) = 0 :=
    htext.same _ _ (htext.copied _ _)
  have hfound := hclosed.found_iff (rfl : stlDictItemCheckType (strKey a text len) = true) hv
    (rfl : stlDictItemCheckType (strKey a' text len) = true) hcmp
  have hsame : SameBucket d (strKey a text len) (strKey a' text len) ↔ len.toNat ≤ itemSize ∧
      (absorb crc32Poly 0 (addrDiff a a' len)).toNat % dictInitSize = 0 := by
    constructor
    · rintro ⟨hin, -, hindex⟩
      rw [hclosed.index_eq, hclosed.index_eq, Option.some.injEq] at hindex
      exact ⟨hin, (hash_congr_iff hcrc hin).mp hindex⟩
    · rintro ⟨hin, hzero⟩
      refine ⟨hin, hin, ?_⟩
      rw [hclosed.index_eq, hclosed.index_eq, Option.some.injEq]
      exact (hash_congr_iff hcrc hin).mpr hzero
  refine ⟨hsame, ?_⟩
  rw [← hsame, FoundUnder, SameBucket, hfound]

end Addresses

section Examples

def itemHash (item : StlDictItem Located) (len : BitVec 32) : BitVec 32 :=
  stlHashCrc32a ((itemBytes item).take len.toNat)

def textCmp (a b : StlDictItem Located) : ℤ := strncmp a.data.text.length a.data.text b.data.text

def strdupCopy : PairCopy Located := fun key value =>
  (strKey 0x5000 key.data.text (BitVec.ofNat 32 key.data.text.length), value)

theorem byText_textCmp : ByText textCmp strdupCopy where
  same a b h := by
    rw [textCmp, h]
    exact strncmp_self _ _
  copied _ _ := rfl

def serviceInfo : StlDict Located :=
  ⟨64, 0, 4096, fun _ => none, fun _ => none, 0, textCmp, itemHash⟩

theorem reached_serviceInfo : Reached serviceInfo :=
  .init (rfl : stlDictInit 4096 textCmp itemHash = some serviceInfo)

def nodeName : Str := ['a', ':', '1'].map chr

/-- Addresses with the same last three bytes. -/
theorem found_under_close : FoundUnder serviceInfo strdupCopy (strKey 0x1002000 nodeName 3)
    (strKey 0x3002000 nodeName 3) (strKey 0x4000 nodeName 3) := by
  refine (found_under_iff reached_serviceInfo (fun _ _ => rfl) byText_textCmp 0x1002000 0x3002000
    nodeName 3 rfl).2.mpr ⟨by decide, ?_⟩
  decide +kernel

/-- The same name in two neighbouring buffers. -/
theorem not_found_under : Reached serviceInfo ∧ UsesCrc32a serviceInfo ∧
    ByText serviceInfo.cmp strdupCopy ∧
    ¬ SameBucket serviceInfo (strKey 0x1002000 nodeName 3) (strKey 0x1002010 nodeName 3) ∧
    ¬ FoundUnder serviceInfo strdupCopy (strKey 0x1002000 nodeName 3)
      (strKey 0x1002010 nodeName 3) (strKey 0x4000 nodeName 3) := by
  refine ⟨reached_serviceInfo, fun _ _ => rfl, byText_textCmp, ?_, ?_⟩
  · rintro ⟨-, -, hindex⟩
    exact absurd hindex (by decide +kernel)
  · rintro ⟨-, -, d', hins, hlook, -⟩
    have hmiss : (serviceInfo.stlDictInsert strdupCopy (strKey 0x1002000 nodeName 3)
        (strKey 0x4000 nodeName 3)).map (fun r =>
          (r.1.stlDictLookup (strKey 0x1002010 nodeName 3)).map Option.isSome) =
            some (some false) := by decide +kernel
    rw [hins, Option.map_some, hlook] at hmiss
    exact absurd hmiss (by decide)

end Examples

end KirinFS.Dict
