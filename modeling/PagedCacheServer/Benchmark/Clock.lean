import Mathlib.Data.List.Rotate
import PagedCacheServer.Benchmark.Reference

/-!
# The circular buffer as a queue

Read from the hand on, the slots of the clock are a queue: moving the hand takes the
front key to the back. A sweep is the sweep of a second-chance queue, but it leaves the
hand on the slot it has emptied, and that slot is where the new key goes. So a key that
comes in for another one is the *next* to be examined: the buffer is the queue of
`BitQueue.frontChance`, on every run over keys that are not empty
(`PagedCacheServer.BenchmarkCache.refines_clock`).
-/

namespace PagedCacheServer

namespace BenchmarkCache

variable {s s' : BenchmarkCache} {k key v : Bytes} {n : ℕ} {pre post rest : List Bytes}

/-! ### The ring -/

/-- The slots from the hand on. -/
def ring (s : BenchmarkCache) : List Bytes := s.clockBuffer.rotate s.clockHand

/-- The reference bit under a key. -/
def referenced (s : BenchmarkCache) (key : Bytes) : Bool :=
  s.flag BenchmarkCacheEntry.referenceBit key

/-- The keys with their bits, the one under the hand first. -/
def clockQueue (s : BenchmarkCache) : List (Bytes × Bool) :=
  s.ring.map fun k => (k, s.referenced k)

theorem unreference_unreference (e : BenchmarkCacheEntry) :
    unreference (unreference e) = unreference e := rfl

theorem referenceBit_unreference (e : BenchmarkCacheEntry) :
    (unreference e).referenceBit = false := rfl

/-- The hand has passed the keys and cleared their bits. -/
def passed (s : BenchmarkCache) (keys : List Bytes) : BenchmarkCache :=
  { s.modifyAll keys unreference with
    clockHand := (s.clockHand + keys.length) % s.clockBuffer.length }

theorem slot_of_ring (hhand : s.clockHand < s.clockBuffer.length) (hring : s.ring = v :: rest) :
    s.slot 0 = v := by
  have hhead := List.head?_rotate hhand
  rw [← ring, hring, List.head?_cons] at hhead
  rw [slot_zero hhand, List.getD_eq_getElem?_getD, ← hhead, Option.getD_some]

theorem ring_passed (hring : s.ring = pre ++ rest) : (s.passed pre).ring = rest ++ pre := by
  have hrotate : (s.passed pre).ring = (s.ring).rotate pre.length := by
    rw [ring, ring, List.rotate_rotate]
    exact List.rotate_mod _ _
  rw [hrotate, hring, List.rotate_append_length_eq]

theorem passed_cons (key : Bytes) (keys : List Bytes) :
    s.passed (key :: keys) = ((s.modifyEntry key unreference).advanceHand).passed keys := by
  have hhand : (s.clockHand + (key :: keys).length) % s.clockBuffer.length =
      ((s.clockHand + 1) % s.clockBuffer.length + keys.length) % s.clockBuffer.length := by
    rw [Nat.mod_add_mod, List.length_cons]
    congr 1
    omega
  simp only [passed, hhand]
  rfl

/-- The loop passes over the keys whose bit is set. -/
theorem clockLoop_pass (hhand : s.clockHand < s.clockBuffer.length) (hnd : s.ring.Nodup)
    (hring : s.ring = pre ++ rest) (hpre : ∀ k ∈ pre, s.referenced k = true) (n : ℕ) :
    clockLoop (pre.length + n) s = clockLoop n (s.passed pre) := by
  induction pre generalizing s rest with
  | nil =>
    have hsame : s.passed [] = s := by
      simp only [passed, List.length_nil, Nat.add_zero, Nat.mod_eq_of_lt hhand]
      rfl
    rw [hsame, List.length_nil, Nat.zero_add]
  | cons key pre ih =>
    obtain ⟨e, he, hbit⟩ := exists_of_flag (hpre key (by simp))
    have hmem := AList.lookup_isSome.mp (Option.isSome_of_eq_some he)
    have hlen : (key :: pre).length + n = (pre.length + n) + 1 := by
      rw [List.length_cons]
      omega
    have hnext : ((s.modifyEntry key unreference).advanceHand).ring = pre ++ (rest ++ [key]) := by
      have hone : (s.passed [key]).ring = (pre ++ rest) ++ [key] := ring_passed hring
      rw [← List.append_assoc, ← hone]
      rfl
    have hkey : key ∉ pre := by
      rw [hring, List.cons_append, List.nodup_cons] at hnd
      exact fun h => hnd.1 (by simp [h])
    rw [hlen, clockLoop_succ hhand, slot_of_ring hhand hring, he]
    simp only [hbit, Bool.true_eq_false, if_false]
    rw [ih (advanceHand_lt (by simp only [modifyEntry]; omega)) ?_ hnext, passed_cons]
    · intro k hk
      have hne : k ≠ key := fun h => hkey (h ▸ hk)
      have hflag : ((s.modifyEntry key unreference).advanceHand).referenced k = s.referenced k := by
        refine (flag_modifyEntry referenceBit_unreference hmem k).trans (if_neg hne)
      rw [hflag]
      exact hpre k (by simp [hk])
    · rw [ring, List.nodup_rotate]
      exact List.nodup_rotate.mp hnd

/-! ### The eviction -/

/-- The entry under the key is gone, and the slot under the hand is free. -/
def emptySlot (s : BenchmarkCache) (key : Bytes) : BenchmarkCache :=
  { s with
    cacheMap := s.cacheMap.erase key
    clockBuffer := s.clockBuffer.set s.clockHand [] }

/-- The loop stops at a clear bit. -/
theorem clockLoop_stop (hhand : s.clockHand < s.clockBuffer.length) (hring : s.ring = v :: rest)
    (hmem : v ∈ s.cacheMap) (hv : s.referenced v = false) :
    clockLoop (n + 1) s = some (s.emptySlot v) := by
  obtain ⟨e, he⟩ := Option.isSome_iff_exists.mp (AList.lookup_isSome.mpr hmem)
  have hbit : e.referenceBit = false := (flag_of_lookup he).symm.trans hv
  rw [clockLoop_succ hhand, slot_of_ring hhand hring, he]
  simp [hbit, emptySlot]

theorem length_ring (s : BenchmarkCache) : s.ring.length = s.clockBuffer.length :=
  List.length_rotate _ _

theorem passed_hand_lt (hhand : s.clockHand < s.clockBuffer.length) (keys : List Bytes) :
    (s.passed keys).clockHand < (s.passed keys).clockBuffer.length :=
  Nat.mod_lt _ (by omega)

theorem mem_passed (keys : List Bytes) : k ∈ (s.passed keys).cacheMap ↔ k ∈ s.cacheMap :=
  mem_modifyAll keys

theorem referenced_passed (keys : List Bytes) (k : Bytes) :
    (s.passed keys).referenced k = if k ∈ keys then false else s.referenced k := by
  have hlook : (s.passed keys).cacheMap.lookup k =
      if k ∈ keys then (s.cacheMap.lookup k).map unreference else s.cacheMap.lookup k :=
    lookup_modifyAll unreference_unreference keys
  rw [referenced, flag, hlook]
  split_ifs
  · rcases s.cacheMap.lookup k with _ | e <;> rfl
  · rfl

/-- **The sweep finds a clear bit**: the first such key goes. -/
theorem evictClock_of_split (hhand : s.clockHand < s.clockBuffer.length) (hnd : s.ring.Nodup)
    (hring : s.ring = pre ++ v :: post) (hmem : v ∈ s.cacheMap)
    (hpre : ∀ k ∈ pre, s.referenced k = true) (hv : s.referenced v = false) :
    s.evictClock = (s.passed pre).emptySlot v := by
  have hlen := congrArg List.length hring
  rw [length_ring, List.length_append, List.length_cons] at hlen
  obtain ⟨m, hm⟩ : ∃ m, 2 * s.clockBuffer.length = pre.length + (m + 1) :=
    ⟨pre.length + 2 * post.length + 1, by omega⟩
  have hvpre : v ∉ pre := by
    rw [hring, List.nodup_append] at hnd
    exact fun h => hnd.2.2 v h v (by simp) rfl
  have hclear : (s.passed pre).referenced v = false := by
    rw [referenced_passed, if_neg hvpre, hv]
  have hpassed : (s.passed pre).ring = v :: (post ++ pre) := ring_passed hring
  rw [evictClock, if_neg (List.ne_nil_of_length_pos (by omega)), hm,
    clockLoop_pass hhand hnd hring hpre, clockLoop_stop (passed_hand_lt hhand pre) hpassed
      ((mem_passed pre).mpr hmem) hclear, Option.getD_some]

/-- **All bits are set**: all are cleared, and the key under the hand goes. -/
theorem evictClock_of_all (hhand : s.clockHand < s.clockBuffer.length) (hnd : s.ring.Nodup)
    (hring : s.ring = v :: rest) (hmem : v ∈ s.cacheMap)
    (hall : ∀ k ∈ s.ring, s.referenced k = true) :
    s.evictClock = (s.passed s.ring).emptySlot v := by
  have hlen := congrArg List.length hring
  rw [length_ring, List.length_cons] at hlen
  obtain ⟨m, hm⟩ : ∃ m, 2 * s.clockBuffer.length = s.ring.length + (m + 1) :=
    ⟨rest.length, by rw [length_ring]; omega⟩
  have hclear : (s.passed s.ring).referenced v = false := by
    rw [referenced_passed, if_pos (by simp [hring])]
  have hpassed : (s.passed s.ring).ring = v :: rest :=
    (ring_passed (List.append_nil _).symm).trans hring
  rw [evictClock, if_neg (List.ne_nil_of_length_pos (by omega)), hm,
    clockLoop_pass hhand hnd (List.append_nil _).symm hall,
    clockLoop_stop (passed_hand_lt hhand _) hpassed ((mem_passed _).mpr hmem) hclear,
    Option.getD_some]

/-! ### The new key -/

theorem fillSlot_of_full {l : List Bytes} (h : [] ∉ l) (key : Bytes) :
    fillSlot key l = l ++ [key] := by
  induction l with
  | nil => rfl
  | cons a l ih =>
    rw [List.mem_cons, not_or] at h
    rw [fillSlot, if_neg (Ne.symm h.1), ih h.2, List.cons_append]

/-- The one free slot is filled. -/
theorem fillSlot_set {l : List Bytes} (h : [] ∉ l) {i : ℕ} (hi : i < l.length) (key : Bytes) :
    fillSlot key (l.set i []) = l.set i key := by
  induction l generalizing i with
  | nil => simp at hi
  | cons a l ih =>
    rw [List.mem_cons, not_or] at h
    cases i with
    | zero => rw [List.set_cons_zero, List.set_cons_zero, fillSlot, if_pos rfl]
    | succ i =>
      rw [List.set_cons_succ, List.set_cons_succ, fillSlot, if_neg (Ne.symm h.1),
        ih h.2 (by simpa using hi)]

theorem rotate_set {l : List Bytes} {i : ℕ} (hi : i < l.length) (x : Bytes) :
    (l.set i x).rotate i = x :: (l.rotate i).tail := by
  have hlen : (l.take i).length = i := by
    rw [List.length_take]
    omega
  have hset : (l.set i x).rotate i = (x :: l.drop (i + 1)) ++ l.take i := by
    have happend := List.rotate_append_length_eq (l.take i) (x :: l.drop (i + 1))
    rw [hlen] at happend
    rw [List.set_eq_take_append_cons_drop, if_pos hi, happend]
  rw [hset, List.rotate_eq_drop_append_take (by omega), List.drop_eq_getElem_cons hi]
  rfl

theorem referenced_addClock (s : BenchmarkCache) (key value k : Bytes) :
    ((s.store key value).addClock key).referenced k =
      if k = key then true else s.referenced k := by
  have hmem : key ∈ (s.store key value).cacheMap := (AList.mem_insert _).mpr (Or.inl rfl)
  refine Eq.trans (flag_modifyEntry
    (f := fun e => { e with referenceBit := true }) (fun _ => rfl) hmem k) ?_
  split_ifs with hk
  · rfl
  · exact flag_store_of_ne hk value

theorem referenced_emptySlot (hk : k ≠ v) : (s.emptySlot v).referenced k = s.referenced k := by
  rw [referenced, flag, emptySlot, AList.lookup_erase_ne hk, referenced, flag]

/-- **The new key takes the slot under the hand**, in front of the others. -/
theorem clockQueue_replace {keys : List Bytes} (hhand : s.clockHand < s.clockBuffer.length)
    (hfree : [] ∉ s.clockBuffer) (hring : (s.passed keys).ring = v :: rest) (hv : v ∉ rest)
    (hkey : key ∉ rest) (value : Bytes) :
    ((((s.passed keys).emptySlot v).store key value).addClock key).clockQueue =
      (key, true) :: rest.map fun k => (k, if k ∈ keys then false else s.referenced k) := by
  have hlt := passed_hand_lt hhand keys
  have hfree' : [] ∉ (s.passed keys).clockBuffer := hfree
  have hnew : ((((s.passed keys).emptySlot v).store key value).addClock key).ring =
      key :: rest := by
    change (fillSlot key ((s.passed keys).clockBuffer.set (s.passed keys).clockHand [])).rotate
      (s.passed keys).clockHand = key :: rest
    rw [fillSlot_set hfree' hlt, rotate_set hlt, ← ring, hring, List.tail_cons]
  rw [clockQueue, hnew, List.map_cons, referenced_addClock, if_pos rfl]
  refine congrArg ((key, true) :: ·) (List.map_congr_left fun k hk => ?_)
  have hkk : k ≠ key := fun h => hkey (h ▸ hk)
  have hkv : k ≠ v := fun h => hv (h ▸ hk)
  rw [referenced_addClock, if_neg hkk, referenced_emptySlot hkv, referenced_passed]

/-! ### The refinement -/

/-- The cache and the queue hold the same keys, from the hand on. Until the first
eviction the hand has not moved. -/
structure SameRing (s : BenchmarkCache) (q : List (Bytes × Bool)) : Prop where
  settled : s.Settled
  policy : s.policy = .clock
  free : [] ∉ s.clockBuffer
  named : [] ∉ s.cacheMap
  start : s.getCurrentSize < s.maxCapacity → s.clockHand = 0
  queue : q = s.clockQueue

variable {q : List (Bytes × Bool)}

theorem SameRing.books (h : SameRing s q) : s.ClockBooks :=
  (books_of_clock h.policy).mp h.settled.books

theorem SameRing.keeps (h : SameRing s q) : Keeps s.clockBuffer s.cacheMap := by
  intro k
  by_cases hk : k = []
  · rw [hk, if_neg h.named, List.count_eq_zero_of_not_mem h.free]
  · exact h.books.count k hk

theorem SameRing.keeps_ring (h : SameRing s q) : Keeps s.ring s.cacheMap :=
  h.keeps.perm (List.rotate_perm _ _)

theorem SameRing.hand_lt (h : SameRing s q) (hne : s.ring ≠ []) :
    s.clockHand < s.clockBuffer.length := by
  have hpos := List.length_pos_of_ne_nil hne
  rw [length_ring] at hpos
  have := h.books.hand
  omega

theorem map_fst_clockQueue (s : BenchmarkCache) : s.clockQueue.map Prod.fst = s.ring := by
  simp [clockQueue, Function.comp_def]

theorem Alike.referenced (h : Alike s s') (k : Bytes) : s'.referenced k = s.referenced k := by
  have hbits := congrArg (Option.map Prod.snd) (h.bits k)
  rw [Option.map_map, Option.map_map] at hbits
  exact congrArg (Option.getD · false) hbits

/-- The cache and the queue drop the same key for a new one, and are the same
afterwards. -/
structure SweptAlike (s : BenchmarkCache) (q : List (Bytes × Bool)) (key value v : Bytes) :
    Prop where
  removes : Removes s s.evictClock v
  victim : (BitQueue.frontChance.replace q key).1 = some v
  queue : (BitQueue.frontChance.replace q key).2 =
    ((s.evictClock.store key value).addClock key).clockQueue
  buffer : ((s.evictClock.store key value).addClock key).clockBuffer ⊆ key :: s.clockBuffer

/-- It is enough that both sweeps pass the same keys and stop at the same one. -/
theorem SameRing.sweptAlike {keys : List Bytes} (h : SameRing s q) (hkey : key ∉ s.cacheMap)
    (value : Bytes) (hring : (s.passed keys).ring = v :: rest)
    (hevict : s.evictClock = (s.passed keys).emptySlot v)
    (hsweep : BitQueue.chanceSweep (2 * s.clockQueue.length) s.clockQueue =
      (some v, rest.map fun k => (k, if k ∈ keys then false else s.referenced k))) :
    SweptAlike s q key value v := by
  -- the ring has only been turned
  have hperm : (v :: rest).Perm s.ring :=
    hring ▸ (List.rotate_perm _ _).trans (List.rotate_perm _ _).symm
  have hkeeps := h.keeps_ring
  have hnd := List.nodup_cons.mp (hperm.nodup_iff.mpr hkeeps.nodup)
  have hmem : v ∈ s.ring := hperm.mem_iff.mp List.mem_cons_self
  have hkey' : key ∉ rest := fun hk =>
    hkey ((hkeeps.mem_iff key).mp (hperm.mem_iff.mp (List.mem_cons_of_mem v hk)))
  have hhand := h.hand_lt (List.ne_nil_of_mem hmem)
  rw [h.queue]
  refine ⟨?_, congrArg Prod.fst hsweep, ?_, ?_⟩ <;> rw [hevict]
  · refine ⟨(hkeeps.mem_iff v).mp hmem, fun k => ?_⟩
    rw [emptySlot, AList.mem_erase, mem_passed]
  · rw [clockQueue_replace hhand h.free hring hnd.1 hkey']
    exact congrArg (fun r => (key, true) :: r.2) hsweep
  · intro a ha
    change a ∈ fillSlot key (s.clockBuffer.set (s.passed keys).clockHand []) at ha
    rw [fillSlot_set h.free (passed_hand_lt hhand keys)] at ha
    rcases List.mem_or_eq_of_mem_set ha with ha | rfl
    · exact List.mem_cons_of_mem _ ha
    · exact List.mem_cons_self

/-- The sweep of the buffer is the sweep of the queue. -/
theorem SameRing.replace (h : SameRing s q) (hne : s.ring ≠ []) (hkey : key ∉ s.cacheMap)
    (value : Bytes) : ∃ v, SweptAlike s q key value v := by
  have hkeeps := h.keeps_ring
  have hnd := hkeeps.nodup
  have hhand := h.hand_lt hne
  rcases flag_cases s.referenced s.ring with ⟨pre, v, post, hring, hpre, hv⟩ | hall
  · -- the hand passes some referenced keys and stops
    have hmem : v ∈ s.ring := by simp [hring]
    have hset : ∀ x ∈ pre.map fun k => (k, s.referenced k), x.2 = true := by simpa using hpre
    have hqueue : s.clockQueue = pre.map (fun k => (k, s.referenced k)) ++
        (v, false) :: post.map fun k => (k, s.referenced k) := by
      simp [clockQueue, hring, hv]
    have hrest : (s.passed pre).ring = v :: (post ++ pre) := ring_passed hring
    refine ⟨v, h.sweptAlike hkey value hrest
      (evictClock_of_split hhand hnd hring ((hkeeps.mem_iff v).mp hmem) hpre hv) ?_⟩
    rw [hqueue, BitQueue.chanceSweep_of_split hset (by
      simp only [List.length_append, List.length_cons]
      omega), List.map_append, BitQueue.clear, List.map_map]
    rw [hring, List.nodup_middle, List.nodup_cons] at hnd
    refine congrArg (Prod.mk (some v)) (congrArg₂ (· ++ ·)
      (List.map_congr_left fun k hk => ?_) (List.map_congr_left fun k hk => ?_))
    · rw [if_neg fun hk' => (List.nodup_append.mp hnd.2).2.2 k hk' k hk rfl]
    · rw [if_pos hk]
      rfl
  · -- it goes round once, and stops where it started
    obtain ⟨v, rest, hring⟩ := List.exists_cons_of_ne_nil hne
    have hmem : v ∈ s.ring := by simp [hring]
    have hqueue : s.clockQueue =
        (v, s.referenced v) :: rest.map fun k => (k, s.referenced k) := by
      simp [clockQueue, hring]
    have hset : ∀ x ∈ (v, s.referenced v) :: rest.map fun k => (k, s.referenced k),
        x.2 = true := by
      rw [← hqueue, clockQueue]
      simpa using hall
    refine ⟨v, h.sweptAlike hkey value ((ring_passed (List.append_nil _).symm).trans hring)
      (evictClock_of_all hhand hnd hring ((hkeeps.mem_iff v).mp hmem) hall) ?_⟩
    rw [hqueue, BitQueue.chanceSweep_of_all hset (by
      simp only [List.length_cons]
      omega), BitQueue.clear, List.map_map]
    refine congrArg (Prod.mk (some v)) (List.map_congr_left fun k hk => ?_)
    rw [if_pos (by simp [hring, hk])]
    rfl

theorem SameRing.alike (h : SameRing s q) (ha : Alike s s') : SameRing s' q where
  settled := h.settled.alike ha
  policy := ha.policy.trans h.policy
  free := by
    rw [ha.clockBuffer]
    exact h.free
  named := by
    rw [ha.mem_iff]
    exact h.named
  start hsize := by
    rw [getCurrentSize_congr ha.mem_iff, ha.maxCapacity] at hsize
    rw [ha.clockHand]
    exact h.start hsize
  queue := by
    rw [h.queue, clockQueue, clockQueue, ring, ring, ha.clockBuffer, ha.clockHand]
    exact List.map_congr_left fun k _ => by rw [ha.referenced]

theorem SameRing.hit (h : SameRing s q) (hkey : key ∈ s.cacheMap) :
    SameRing (s.update key) (BitQueue.mark q key) := by
  have hupdate : s.update key = s.updateClock key := by simp only [update, h.policy]
  have hsettled := h.settled.update hkey
  rw [hupdate] at hsettled ⊢
  refine ⟨hsettled, h.policy, h.free, mem_modifyEntry.not.mpr h.named, fun hsize => h.start ?_, ?_⟩
  · have hsame : (s.updateClock key).getCurrentSize = s.getCurrentSize :=
      getCurrentSize_congr fun k => mem_modifyEntry
    rwa [hsame] at hsize
  · have hring : (s.updateClock key).ring = s.ring := rfl
    rw [h.queue, clockQueue, clockQueue, hring, BitQueue.mark, List.map_map]
    refine List.map_congr_left fun k _ => ?_
    have hflag : (s.updateClock key).referenced k = if k = key then true else s.referenced k :=
      flag_modifyEntry (f := fun e => { e with referenceBit := true }) (fun _ => rfl) hkey k
    rw [hflag]
    by_cases hk : k = key <;> simp [hk]

/-- A key that has room joins the back. -/
theorem SameRing.join (h : SameRing s q) (hok : key ≠ []) (hkey : key ∉ s.cacheMap)
    (hsize : s.getCurrentSize < s.maxCapacity) (value : Bytes) :
    SameRing ((s.store key value).add key) (q ++ [(key, true)]) := by
  have hadd : (s.store key value).add key = (s.store key value).addClock key := by
    simp only [add, store, h.policy]
  have hsettled := h.settled.books.store_add hkey value
  have hmem : ∀ k, k ∈ ((s.store key value).add key).cacheMap ↔ k = key ∨ k ∈ s.cacheMap :=
    fun k => mem_add.trans (AList.mem_insert _)
  have hhand := h.start hsize
  have hbuffer : ((s.store key value).addClock key).clockBuffer = s.clockBuffer ++ [key] :=
    fillSlot_of_full h.free key
  refine ⟨hsettled, (frame_add _ key).policy.trans h.policy, ?_, ?_, fun _ => ?_, ?_⟩
  · rw [hadd, hbuffer]
    simpa [Ne.symm hok] using h.free
  · rw [hmem, not_or]
    exact ⟨Ne.symm hok, h.named⟩
  · rw [hadd]
    exact hhand
  · have hring : ((s.store key value).addClock key).ring = s.ring ++ [key] := by
      have hhand' : ((s.store key value).addClock key).clockHand = 0 := hhand
      rw [ring, ring, hbuffer, hhand, hhand', List.rotate_zero, List.rotate_zero]
    rw [hadd, h.queue, clockQueue, clockQueue, hring, List.map_append, List.map_singleton,
      referenced_addClock, if_pos rfl]
    refine congrArg (· ++ [(key, true)]) (List.map_congr_left fun k hk => ?_)
    have hne : k ≠ key := fun heq => hkey ((h.keeps_ring.mem_iff key).mp (heq ▸ hk))
    rw [referenced_addClock, if_neg hne]

/-- **The clock is the queue in which a replacing key joins the front.** -/
theorem refines_clock : Refines BitQueue.frontChance (· ≠ []) SameRing where
  mem_iff {s q} h k := by
    change k ∈ q.map Prod.fst ↔ _
    rw [h.queue, map_fst_clockQueue, h.keeps_ring.mem_iff]
  length {s q} h := by
    change q.length = _
    rw [h.queue, clockQueue, List.length_map]
    exact h.keeps_ring.length_eq
  alike h ha := h.alike ha
  hit _ h hkey := h.hit hkey
  join _ h hok hkey hsize value := h.join hok hkey hsize value
  replace {s q key} hs h hok hkey hfull value := by
    have hevict : s.makeRoom = s.evictClock := by
      rw [makeRoom, if_pos hfull.1]
      simp only [evict, h.policy]
    have hne : s.ring ≠ [] := fun hnil => hfull.2 (h.keeps_ring.eq_nil_iff.mp hnil)
    obtain ⟨v, hrem, hv, hqueue, hbuffer⟩ := h.replace hne hkey value
    have hframe := frame_makeRoom s
    have hbooks := hs.makeRoom_books
    rw [hevict] at hframe hbooks ⊢
    have hkey' : key ∉ s.evictClock.cacheMap := fun hmem => hkey ((hrem.mem_iff key).mp hmem).2
    have hadd : (s.evictClock.store key value).add key =
        (s.evictClock.store key value).addClock key := by
      simp only [add, store, hframe.policy, h.policy]
    have hmem : ∀ k, k ∈ ((s.evictClock.store key value).add key).cacheMap ↔
        k = key ∨ k ∈ s.evictClock.cacheMap := fun k => mem_add.trans (AList.mem_insert _)
    have hframe' := frame_add (s.evictClock.store key value) key
    refine ⟨v, hrem, hv, hbooks.store_add hkey' value,
      hframe'.policy.trans (hframe.policy.trans h.policy), ?_, ?_, fun hsize => ?_, ?_⟩
    · rw [hadd]
      intro hfree
      rcases List.mem_cons.mp (hbuffer hfree) with heq | hfree
      · exact hok heq.symm
      · exact h.free hfree
    · rw [hmem, hrem.mem_iff, not_or]
      exact ⟨Ne.symm hok, fun hnamed => h.named hnamed.2⟩
    · -- the cache is as full as before
      have hcap : ((s.evictClock.store key value).add key).maxCapacity = s.maxCapacity :=
        hframe'.maxCapacity.trans hframe.maxCapacity
      have hnew := getCurrentSize_of_insert hkey' hmem
      have hold := hrem.getCurrentSize
      have hle := hfull.1
      omega
    · rw [hadd]
      exact hqueue

end BenchmarkCache

end PagedCacheServer
