import Mathlib.Tactic.NormNum
import ShirleysOS.Virtio.Block

/-!
# The virtio block driver moves the right sectors

Between two requests the index of the available ring is the number of requests that the device has
seen, and the index of the used ring is the one that the driver waits to see changed. Both count
modulo `2 ^ 16`. A request is a chain of three descriptors, so it fits into the table, and the
stores that post it are at disjoint places, when the queue has at least three entries. The device
then finds the request that the driver meant.
-/

namespace ShirleysOS.Virtio

open Lib Storage

/-! ## Layout -/

theorem le_alignUp {value alignment : ℕ} (h : 0 < alignment) : value ≤ alignUp value alignment := by
  unfold alignUp
  have hmod := Nat.mod_lt (value + alignment - 1) h
  have hdiv := Nat.div_add_mod' (value + alignment - 1) alignment
  omega

theorem rings_le (size : ℕ) : 16 * size + (6 + 2 * size) ≤ usedOffset size ∧
    usedOffset size + (6 + 8 * size) ≤ ringBytes size :=
  ⟨le_alignUp (by decide), Nat.add_le_add_left (le_alignUp (by decide)) _⟩

/-- One area of memory, given by its start and its length, is inside another. -/
def Inside (p area : ℕ × ℕ) : Prop := area.1 ≤ p.1 ∧ p.1 + p.2 ≤ area.1 + area.2

instance (p area : ℕ × ℕ) : Decidable (Inside p area) := inferInstanceAs (Decidable (_ ∧ _))

/-- Two areas of memory have no byte in common. -/
def Separate (p q : ℕ × ℕ) : Prop := p.1 + p.2 ≤ q.1 ∨ q.1 + q.2 ≤ p.1

variable {k : BlockDisk} {s : DeviceState} {w : World}

namespace BlockDisk

/-- The parts of the memory that the driver writes: the descriptor table, the available ring, the
header, the status byte and the bounce buffer. -/
def ownAreas (k : BlockDisk) : List (ℕ × ℕ) :=
  [(k.ring, 16 * k.queueSize), (k.available, 6 + 2 * k.queueSize), (k.data, 16), (k.status, 1),
    (k.bounce, bounceSectors * sectorBytes)]

/-- The used ring. -/
def usedArea (k : BlockDisk) : ℕ × ℕ := (k.used, 6 + 8 * k.queueSize)

/-- The memory that the heap gave for the queue. -/
def ringBlock (k : BlockDisk) : ℕ × ℕ := (k.ring, ringBytes k.queueSize)

/-- The memory that the heap gave for the requests. -/
def dataBlock (k : BlockDisk) : ℕ × ℕ := (k.data, dataBytes)

/-- The two pieces of memory have no byte in common, and all their addresses have 64 bits. -/
structure Placed (k : BlockDisk) : Prop where
  size : 0 < k.queueSize
  small : k.queueSize < 2 ^ 16
  sectors : k.sectors < 2 ^ 64
  ring : k.ring + ringBytes k.queueSize ≤ 2 ^ 64
  data : k.data + dataBytes ≤ 2 ^ 64
  apart : Separate k.ringBlock k.dataBlock

/-- **The parts of the memory are disjoint**, and each is in one of the two pieces. -/
theorem Placed.areas (h : k.Placed) :
    (k.usedArea :: k.ownAreas).Pairwise Separate ∧
      ∀ area ∈ k.usedArea :: k.ownAreas, Inside area k.ringBlock ∨ Inside area k.dataBlock := by
  have hrings := rings_le k.queueSize
  have hapart := h.apart
  simp only [Separate, Inside, ringBlock, dataBlock, usedArea, ownAreas, List.pairwise_cons,
    List.forall_mem_cons, available, used, status, bounce, dataBytes] at hapart ⊢
  simp only [List.not_mem_nil, false_implies, implies_true, List.Pairwise.nil, and_true]
  omega

/-- The used ring has no byte in common with a part of the memory that the driver writes. -/
theorem Placed.usedApart (h : k.Placed) {area : ℕ × ℕ} (harea : area ∈ k.ownAreas) :
    Separate k.usedArea area :=
  (List.pairwise_cons.mp h.areas.1).1 area harea

/-- The available ring has no byte in common with the status byte and the bounce buffer. -/
theorem Placed.availableApart (h : k.Placed) :
    Separate (k.available, 6 + 2 * k.queueSize) (k.status, 1) ∧
      Separate (k.available, 6 + 2 * k.queueSize) (k.bounce, bounceSectors * sectorBytes) := by
  have hown := (List.pairwise_cons.mp h.areas.1).2
  have hrest := (List.pairwise_cons.mp (List.pairwise_cons.mp hown).2).1
  exact ⟨hrest _ (by simp), hrest _ (by simp)⟩

end BlockDisk

/-! ## What the driver posts -/

variable {k : BlockDisk} {m : Bytes} {type first bytes index : ℕ}

/-- All the stores of a request. -/
def posted (k : BlockDisk) (type first bytes index : ℕ) : List Patch :=
  k.describe type first bytes ++
    [⟨k.available + 2 * (2 + index % k.queueSize), 2, .ofNat 0⟩,
      ⟨k.available + 2, 2, .ofNat (index + 1)⟩]

/-- **With three entries the stores of a request are at disjoint places.** -/
theorem posted_apart (hk : k.Placed) (hthree : 3 ≤ k.queueSize) :
    (posted k type first bytes index).Pairwise Patch.Apart := by
  have hrings := rings_le k.queueSize
  have hapart := hk.apart
  have hindex := Nat.mod_lt index hk.size
  simp only [posted, BlockDisk.describe, List.cons_append, List.nil_append, List.pairwise_cons,
    List.forall_mem_cons, Patch.Apart, Separate, BlockDisk.ringBlock, BlockDisk.dataBlock,
    BlockDisk.available, BlockDisk.status, BlockDisk.bounce, dataBytes] at hapart ⊢
  simp only [List.not_mem_nil, false_implies, implies_true, List.Pairwise.nil, and_true]
  omega

/-- With three entries the stores of a request are all to the driver's own parts of the memory. -/
theorem posted_inside (hk : k.Placed) (hthree : 3 ≤ k.queueSize) :
    ∀ p ∈ posted k type first bytes index, ∃ area ∈ k.ownAreas, Inside p.place area := by
  have hindex := Nat.mod_lt index hk.size
  simp only [posted, BlockDisk.describe, List.cons_append, List.nil_append, List.forall_mem_cons,
    BlockDisk.ownAreas, List.exists_mem_cons_iff, Patch.place, Inside, BlockDisk.available,
    BlockDisk.status, BlockDisk.bounce]
  simp only [List.not_mem_nil, false_implies, implies_true, and_true]
  omega

/-! ## What the device finds -/

theorem Descriptor.fields (d : Descriptor) :
    d.bytes.nat 0 8 = d.address % 2 ^ 64 ∧ d.bytes.nat 8 4 = d.length % 2 ^ 32 ∧
      d.bytes.nat 12 2 = d.flags % 2 ^ 16 ∧ d.bytes.nat 14 2 = d.next % 2 ^ 16 := by
  have hfield := @Bytes.nat_patch_fields (fun _ => 0) [⟨0, 8, .ofNat d.address⟩,
    ⟨8, 4, .ofNat d.length⟩, ⟨12, 2, .ofNat d.flags⟩, ⟨14, 2, .ofNat d.next⟩]
    (by simp [Patch.Apart])
  simp only [List.forall_mem_cons, Bytes.nat_ofNat, Nat.mul_zero, Nat.pow_zero, Nat.div_one]
    at hfield
  obtain ⟨haddress, hlength, hflags, hnext, -⟩ := hfield
  exact ⟨haddress, hlength, hflags, hnext⟩

theorem headerBytes_fields :
    (headerBytes type first).nat 0 4 = type % 2 ^ 32 ∧
      (headerBytes type first).nat 8 8 = first % 2 ^ 64 := by
  have hfield := @Bytes.nat_patch_fields (fun _ => 0)
    [⟨0, 4, .ofNat type⟩, ⟨4, 4, .ofNat 0⟩, ⟨8, 8, .ofNat first⟩] (by simp [Patch.Apart])
  simp only [List.forall_mem_cons, Bytes.nat_ofNat, Nat.mul_zero, Nat.pow_zero, Nat.div_one]
    at hfield
  obtain ⟨htype, -, hsector, -⟩ := hfield
  exact ⟨htype, hsector⟩

theorem descriptorAt_patch {ps : List Patch} (hps : ps.Pairwise Patch.Apart) {ring i : ℕ}
    {d : Descriptor} (hp : ⟨ring + 16 * i, 16, d.bytes⟩ ∈ ps) (haddress : d.address < 2 ^ 64)
    (hlength : d.length < 2 ^ 32) (hflags : d.flags < 2 ^ 16) (hnext : d.next < 2 ^ 16) :
    descriptorAt (m.patch ps) ring i = d := by
  have hread : ∀ o w, o + w ≤ 16 →
      (m.patch ps).nat (ring + 16 * i + o) w = d.bytes.nat o w := fun o w h =>
    Bytes.nat_patch hps hp h
  obtain ⟨h₀, h₈, h₁₂, h₁₄⟩ := d.fields
  have haddress' := hread 0 8 (by decide)
  rw [Nat.add_zero] at haddress'
  simp only [descriptorAt, haddress', hread 8 4 (by decide), hread 12 2 (by decide),
    hread 14 2 (by decide), h₀, h₈, h₁₂, h₁₄, Nat.mod_eq_of_lt haddress, Nat.mod_eq_of_lt hlength,
    Nat.mod_eq_of_lt hflags, Nat.mod_eq_of_lt hnext]

/-- The request that the driver means. -/
def meant (k : BlockDisk) (type first bytes : ℕ) : Request where
  head := 0
  type := type
  sector := first
  data := k.bounce
  length := bytes
  writable := type == requestRead
  status := k.status

/-- **The device finds the request that the driver means.** -/
theorem requestAt_posted (hk : k.Placed) (hthree : 3 ≤ k.queueSize) (hsize : s.size = k.queueSize)
    (hring : s.ring = k.ring) (htype : type = requestRead ∨ type = requestWrite)
    (hfirst : first < 2 ^ 64) (hbytes : bytes < 2 ^ 32) :
    requestAt (m.patch (posted k type first bytes s.seen)) s =
      some (meant k type first bytes) := by
  have hps : (posted k type first bytes s.seen).Pairwise Patch.Apart := posted_apart hk hthree
  have hbounce : k.data + 32 < 2 ^ 64 := Nat.lt_of_lt_of_le
    (Nat.add_lt_add_left (by decide) _) hk.data
  have hmem : ∀ p ∈ k.describe type first bytes, p ∈ posted k type first bytes s.seen :=
    fun p hp => List.mem_append_left _ hp
  simp only [BlockDisk.describe, List.forall_mem_cons] at hmem
  obtain ⟨hheader, -, hzero, hone, htwo, -⟩ := hmem
  have hflags : descriptorNext + (if type = requestRead then descriptorWrite else 0) < 2 ^ 16 := by
    split <;> decide
  -- the head of the chain, from the slot of the available ring
  have hhead : (m.patch (posted k type first bytes s.seen)).nat
      (k.ring + 16 * k.queueSize + 4 + 2 * (s.seen % k.queueSize)) 2 = 0 := by
    have hslot := Bytes.nat_patch (m := m) (o := 0) (w := 2) hps
      (p := ⟨k.available + 2 * (2 + s.seen % k.queueSize), 2, .ofNat 0⟩) (by simp [posted])
      (Nat.le_refl _)
    rw [Bytes.nat_ofNat] at hslot
    rw [show k.ring + 16 * k.queueSize + 4 + 2 * (s.seen % k.queueSize) =
      k.available + 2 * (2 + s.seen % k.queueSize) + 0 by simp only [BlockDisk.available]; omega]
    simpa using hslot
  have hdescriptor₀ : descriptorAt (m.patch (posted k type first bytes s.seen)) k.ring 0 =
      ⟨k.data, 16, descriptorNext, 1⟩ :=
    descriptorAt_patch hps hzero (Nat.lt_of_le_of_lt (Nat.le_add_right _ _) hbounce)
      (by norm_num) (by norm_num) (by norm_num)
  have hdescriptor₁ : descriptorAt (m.patch (posted k type first bytes s.seen)) k.ring 1 =
      ⟨k.bounce, bytes, _, 2⟩ :=
    descriptorAt_patch hps hone hbounce hbytes hflags (by norm_num)
  have hdescriptor₂ : descriptorAt (m.patch (posted k type first bytes s.seen)) k.ring 2 =
      ⟨k.status, 1, descriptorWrite, 0⟩ :=
    descriptorAt_patch hps htwo (Nat.lt_trans (Nat.add_lt_add_left (by norm_num) _) hbounce)
      (by norm_num) (by norm_num) (by norm_num)
  have htypeRead := Bytes.nat_patch (m := m) (o := 0) (w := 4) hps hheader (by norm_num)
  have hsectorRead := Bytes.nat_patch (m := m) (o := 8) (w := 8) hps hheader (by norm_num)
  rw [Nat.add_zero, headerBytes_fields.1] at htypeRead
  rw [headerBytes_fields.2, Nat.mod_eq_of_lt hfirst] at hsectorRead
  unfold requestAt
  simp only [hsize, hring, hhead, hdescriptor₀, hdescriptor₁, hdescriptor₂, htypeRead,
    hsectorRead, Descriptor.goesOn, Descriptor.writable]
  rcases htype with rfl | rfl
  all_goals
    rw [if_pos]
    · simp [meant, descriptorNext, descriptorWrite, requestWrite]
    · simp
      omega

/-- The request that the driver means is one that the device can serve. -/
theorem meant_valid (hk : k.Placed) (hsize : s.size = k.queueSize) (hring : s.ring = k.ring)
    {count : ℕ} (htype : type = requestRead ∨ type = requestWrite ∧ k.readOnly = false)
    (hcount : count ≤ bounceSectors) (hinside : first + count ≤ k.sectors) :
    (meant k type first (count * sectorBytes)).Valid k.sectors k.readOnly s := by
  have hstatus : Separate k.usedArea (k.status, 1) := hk.usedApart (by simp [BlockDisk.ownAreas])
  have hbounce : Separate k.usedArea (k.bounce, bounceSectors * sectorBytes) :=
    hk.usedApart (by simp [BlockDisk.ownAreas])
  have hbytes := Nat.mul_le_mul_right sectorBytes hcount
  have hend := Nat.mul_le_mul_right sectorBytes hinside
  simp only [BlockDisk.usedArea, Separate, BlockDisk.used] at hstatus hbounce
  rw [Nat.add_mul] at hend
  constructor <;> simp only [meant, DeviceState.used, hsize, hring]
  case type =>
    rcases htype with rfl | ⟨rfl, hwritable⟩
    · exact .inl ⟨rfl, rfl⟩
    · exact .inr ⟨rfl, rfl, hwritable⟩
  case whole => exact Nat.mul_mod_left _ _
  case inside => exact hend
  case status =>
    simp only [BlockDisk.status, BlockDisk.bounce]
    omega
  all_goals omega

/-! ## Waiting -/

variable {host : Host}

/-- **The driver sees the answer** when it comes before the last poll. -/
theorem pollLoop_answered {n used last : ℕ} (hlast : m.nat (used + 2) 2 = last)
    (hanswer : (host.answer n s m).2.nat (used + 2) 2 ≠ last) (left polls : ℕ)
    (hpolls : polls ≤ host.delay n) (hdelay : host.delay n < polls + left) :
    pollLoop host n used last left polls s m = (true, host.answer n s m) := by
  induction left generalizing polls with
  | zero => omega
  | succ left ih =>
    rw [pollLoop]
    by_cases hnow : polls = host.delay n
    · rw [if_pos hnow]
      simp only [ne_eq, hanswer, not_false_eq_true, if_true]
    · simp only [if_neg hnow, hlast, ne_eq, not_true_eq_false, if_false]
      exact ih (polls + 1) (by omega) (by omega)

/-! ## One request -/

/-- **Between two requests**: the index of the available ring is the number of requests that the
device has seen, and the driver knows the index of the used ring. What was stored since `old` was
stored into the driver's own parts of the memory. -/
structure Ready (k : BlockDisk) (old : List (ℕ × ℕ)) (w : World) : Prop where
  disk : w.disk = { k with lastUsed := w.memory.bytes.nat (k.used + 2) 2 }
  working : k.broken = false
  available : w.memory.bytes.nat (k.available + 2) 2 = w.device.seen
  size : w.device.size = k.queueSize
  ring : w.device.ring = k.ring
  own : ∃ new, w.memory.written = new ++ old ∧ ∀ p ∈ new, ∃ area ∈ k.ownAreas, Inside p area

/-- What the used ring holds is not changed by the stores of a request. -/
theorem used_posted (hk : k.Placed) (hthree : 3 ≤ k.queueSize) :
    (m.patch (posted k type first bytes index)).nat (k.used + 2) 2 = m.nat (k.used + 2) 2 := by
  apply Bytes.nat_patch_outside
  intro p hp
  obtain ⟨area, harea, hinside⟩ := posted_inside hk hthree p hp
  have hseparate := hk.usedApart harea
  simp only [Separate, BlockDisk.usedArea, Inside, Patch.place] at hseparate hinside
  omega

/-- What the bounce buffer holds is not changed by the stores of a request. -/
theorem bounce_posted (hk : k.Placed) (hthree : 3 ≤ k.queueSize) {j : ℕ}
    (hj : j < bounceSectors * sectorBytes) :
    m.patch (posted k type first bytes index) (k.bounce + j) = m (k.bounce + j) := by
  apply Bytes.patch_outside
  have hrings := rings_le k.queueSize
  have hapart := hk.apart
  have hindex := Nat.mod_lt index hk.size
  simp only [posted, BlockDisk.describe, List.cons_append, List.nil_append, List.forall_mem_cons,
    Patch.Avoids, Separate, BlockDisk.ringBlock, BlockDisk.dataBlock, BlockDisk.available,
    BlockDisk.status, BlockDisk.bounce, dataBytes] at hapart ⊢
  simp only [List.not_mem_nil, false_implies, implies_true, and_true]
  omega

/-- The index of the available ring is not changed by the header, the status and the
descriptors. -/
theorem available_describe (hk : k.Placed) (hthree : 3 ≤ k.queueSize) :
    (m.patch (k.describe type first bytes)).nat (k.available + 2) 2 =
      m.nat (k.available + 2) 2 := by
  apply Bytes.nat_patch_outside
  intro p hp
  have hps : (posted k type first bytes 0).Pairwise Patch.Apart := posted_apart hk hthree
  have hapart := (List.pairwise_append.mp hps).2.2 p hp
    ⟨k.available + 2, 2, .ofNat (0 + 1)⟩ (by simp)
  exact hapart.symm

variable {old : List (ℕ × ℕ)} {w : World} {count : ℕ}

/-- The stores of a request, in the order in which the driver makes them. -/
theorem patch_posted (hk : k.Placed) (hthree : 3 ≤ k.queueSize) (h : Ready k old w) :
    (w.memory.patch (w.disk.describe type first bytes)).patch
      [⟨w.disk.available + 2 * (2 + (w.memory.patch (w.disk.describe type first bytes)).bytes.nat
          (w.disk.available + 2) 2 % w.disk.queueSize), 2, .ofNat 0⟩,
        ⟨w.disk.available + 2, 2, .ofNat ((w.memory.patch
          (w.disk.describe type first bytes)).bytes.nat (w.disk.available + 2) 2 + 1)⟩] =
      w.memory.patch (posted k type first bytes w.device.seen) := by
  have hindex : (w.memory.patch (w.disk.describe type first bytes)).bytes.nat
      (w.disk.available + 2) 2 = w.device.seen := by
    rw [h.disk]
    exact (available_describe hk hthree).trans h.available
  rw [hindex, h.disk]
  simp only [Memory.patch, posted, Bytes.patch_append, List.map_append, List.reverse_append,
    List.append_assoc]
  rfl

theorem available_answered (hk : k.Placed) {s' : DeviceState} {m' : Bytes}
    (hsize : s.size = k.queueSize) (hring : s.ring = k.ring)
    (hbytes : bytes ≤ bounceSectors * sectorBytes)
    (h : Answered s m (meant k type first bytes) s' m') :
    m'.nat (k.available + 2) 2 = m.nat (k.available + 2) 2 := by
  have havailable : Separate k.usedArea (k.available, 6 + 2 * k.queueSize) :=
    hk.usedApart (by simp [BlockDisk.ownAreas])
  obtain ⟨hstatus, hbounce⟩ := hk.availableApart
  have hsize' := hk.size
  simp only [BlockDisk.usedArea, Separate, BlockDisk.used] at havailable hstatus hbounce
  apply Bytes.nat_congr
  intro j hj
  have hused : s.used = k.ring + usedOffset k.queueSize := by rw [DeviceState.used, hsize, hring]
  apply h.frame
  · rw [hused, hsize]
    omega
  · simp only [meant]
    omega
  · right
    simp only [meant]
    omega

/-- **A request moves its sectors.** -/
theorem transfer_ready (hk : k.Placed) (hthree : 3 ≤ k.queueSize)
    (hhost : Conforms k.sectors k.readOnly host) (h : Ready k old w)
    (htype : type = requestRead ∨ type = requestWrite ∧ k.readOnly = false)
    (hcount : count ≤ bounceSectors) (hinside : first + count ≤ k.sectors) :
    ∃ w', transfer host w type first count = (⟨count * sectorBytes, .none⟩, w') ∧
      Ready k old w' ∧
      w'.device.content = (if type = requestRead then w.device.content else
        w.device.content.splice (first * sectorBytes) (count * sectorBytes)
          (w.memory.bytes.slice k.bounce)) ∧
      (type = requestRead → ∀ j < count * sectorBytes,
        w'.memory.bytes (k.bounce + j) = w.device.content (first * sectorBytes + j)) := by
  have hbytes := Nat.mul_le_mul_right sectorBytes hcount
  set posting := posted k type first (count * sectorBytes) w.device.seen with hposting
  set m := (w.memory.patch posting).bytes with hm
  have hps : posting.Pairwise Patch.Apart := posted_apart hk hthree
  have hused : m.nat (k.used + 2) 2 = w.memory.bytes.nat (k.used + 2) 2 := used_posted hk hthree
  -- the device finds the request and answers it
  have havailable : m.nat (k.available + 2) 2 = (w.device.seen + 1) % 2 ^ 16 := by
    have hread := Bytes.nat_patch (m := w.memory.bytes) (o := 0) (w := 2) hps
      (p := ⟨k.available + 2, 2, .ofNat (w.device.seen + 1)⟩) (by simp [hposting, posted])
      (Nat.le_refl _)
    rw [Bytes.nat_ofNat] at hread
    simpa [hm, Memory.patch] using hread
  have hanswered : Answered w.device m (meant k type first (count * sectorBytes))
      (host.answer w.requests w.device m).1 (host.answer w.requests w.device m).2 := by
    apply hhost.answer
    · rw [h.size, h.ring]
      exact havailable
    · exact requestAt_posted hk hthree h.size h.ring (htype.imp_right And.left)
        (Nat.lt_of_le_of_lt (Nat.le_of_add_right_le hinside) hk.sectors)
        (Nat.lt_of_le_of_lt hbytes (by norm_num))
    · exact meant_valid hk h.size h.ring htype hcount hinside
  set answer := host.answer w.requests w.device m with hanswer
  have hdeviceUsed : w.device.used = k.used := by
    rw [DeviceState.used, h.size, h.ring]
    rfl
  have hnewUsed := hanswered.used
  rw [hdeviceUsed, hused] at hnewUsed
  -- so the driver sees it in time
  have hpoll : pollLoop host w.requests w.disk.used w.disk.lastUsed pollLimit 0 w.device m =
      (true, answer) := by
    rw [h.disk]
    apply pollLoop_answered hused _ _ _ (Nat.zero_le _)
    · rw [Nat.zero_add]
      exact hhost.delay _
    · intro hsame
      have hsame : answer.2.nat (k.used + 2) 2 = w.memory.bytes.nat (k.used + 2) 2 := hsame
      omega
  have hstatus : answer.2 w.disk.status = 0 := by
    rw [h.disk]
    exact hanswered.status
  refine ⟨⟨⟨answer.2, (w.memory.patch posting).written⟩,
    { w.disk with lastUsed := (w.disk.lastUsed + 1) % 2 ^ 16 }, answer.1, w.requests + 1⟩,
    ?_, ?_, ?_, ?_⟩
  · simp only [transfer, patch_posted hk hthree h]
    rw [← hposting, ← hm, hpoll]
    simp only [Bool.not_true, Bool.false_eq_true, if_false, hstatus, ne_eq, not_true_eq_false]
  · refine ⟨?_, h.working, ?_, hanswered.size.trans h.size, hanswered.ring.trans h.ring, ?_⟩
    · simp only [h.disk, hnewUsed]
    · rw [hanswered.seen, ← havailable]
      exact available_answered hk h.size h.ring hbytes hanswered
    · obtain ⟨new, hnew, hown⟩ := h.own
      refine ⟨(posting.map Patch.place).reverse ++ new, ?_, ?_⟩
      · simp only [Memory.patch, hnew, List.append_assoc]
      · intro p hp
        rcases List.mem_append.mp hp with hp | hp
        · obtain ⟨patch, hpatch, rfl⟩ := List.mem_map.mp (List.mem_reverse.mp hp)
          exact posted_inside hk hthree patch hpatch
        · exact hown p hp
  · rw [hanswered.content]
    simp only [meant]
    congr 1
    apply Bytes.splice_congr
    intro j hj
    exact bounce_posted hk hthree (Nat.lt_of_lt_of_le hj hbytes)
  · intro hread j hj
    exact hanswered.data hread j hj

/-! ## Calls -/

theorem chunkOf_le (left : ℕ) : chunkOf left ≤ left ∧ chunkOf left ≤ bounceSectors := by
  unfold chunkOf
  split <;> omega

theorem chunkOf_pos {left : ℕ} (h : 0 < left) : 0 < chunkOf left := by
  unfold chunkOf
  split
  · exact h
  · decide

/-- **`read_blocks` reads all the sectors.** -/
theorem readLoop_ready (hk : k.Placed) (hthree : count ≠ 0 → 3 ≤ k.queueSize)
    (hhost : Conforms k.sectors k.readOnly host) {c : Bytes} (hinside : first + count ≤ k.sectors)
    (fuel done : ℕ) (hdone : done ≤ count) (hfuel : count ≤ done + fuel) (h : Ready k old w)
    (hc : w.device.content = c) :
    ∃ w', readLoop host first count fuel done
        ((c.slice (first * sectorBytes)).trim (done * sectorBytes)) w =
        ((⟨count * sectorBytes, .none⟩,
          (c.slice (first * sectorBytes)).trim (count * sectorBytes)), w') ∧
      Ready k old w' ∧ w'.device.content = c := by
  induction fuel generalizing done w with
  | zero =>
    obtain rfl : done = count := by omega
    exact ⟨w, rfl, h, hc⟩
  | succ fuel ih =>
    rw [readLoop]
    by_cases hlt : done < count
    · obtain ⟨hchunk, hbounce⟩ := chunkOf_le (count - done)
      have hpos := chunkOf_pos (Nat.sub_pos_of_lt hlt)
      obtain ⟨w', htransfer, h', hcontent, hread⟩ :=
        transfer_ready hk (hthree (by omega)) hhost h (.inl rfl) hbounce
          (show first + done + chunkOf (count - done) ≤ k.sectors by omega)
      have hdisk : w'.disk.bounce = k.bounce := by
        rw [h'.disk]
        rfl
      -- the chunk goes right behind what was read so far
      have hnext : ((c.slice (first * sectorBytes)).trim (done * sectorBytes)).splice
          (done * sectorBytes) (chunkOf (count - done) * sectorBytes)
          (w'.memory.bytes.slice k.bounce) =
          (c.slice (first * sectorBytes)).trim ((done + chunkOf (count - done)) * sectorBytes) := by
        rw [Nat.add_mul, ← Bytes.trim_splice]
        apply Bytes.splice_congr
        intro j hj
        rw [Bytes.slice_slice, Bytes.slice_apply, Bytes.slice_apply, hread rfl j hj, hc,
          ← Nat.add_mul]
      simp only [if_pos hlt, htransfer, Result.ok, beq_self_eq_true, Bool.not_true,
        Bool.false_eq_true, if_false, hdisk, hnext]
      exact ih _ (by omega) (by omega) h' (hcontent.trans hc)
    · rw [if_neg hlt]
      obtain rfl : done = count := by omega
      exact ⟨w, rfl, h, hc⟩

/-- Data in the bounce buffer is in the driver's own part of the memory. -/
theorem Ready.bounce (hk : k.Placed) (h : Ready k old w) {length : ℕ}
    (hlength : length ≤ bounceSectors * sectorBytes) (data : Bytes) :
    Ready k old { w with memory := w.memory.patch [⟨w.disk.bounce, length, data⟩] } := by
  have hdisk : w.disk.bounce = k.bounce := by
    rw [h.disk]
    rfl
  have hused : Separate k.usedArea (k.bounce, bounceSectors * sectorBytes) :=
    hk.usedApart (by simp [BlockDisk.ownAreas])
  have havailable := hk.availableApart.2
  have hsize := hk.size
  simp only [BlockDisk.usedArea, Separate] at hused havailable
  rw [hdisk]
  refine ⟨?_, h.working, ?_, h.size, h.ring, ?_⟩
  · rw [h.disk]
    congr 1
    symm
    apply Bytes.nat_patch_outside
    simp only [List.forall_mem_cons, List.not_mem_nil, false_implies, implies_true, and_true]
    omega
  · rw [← h.available]
    apply Bytes.nat_patch_outside
    simp only [List.forall_mem_cons, List.not_mem_nil, false_implies, implies_true, and_true]
    omega
  · obtain ⟨new, hnew, hown⟩ := h.own
    refine ⟨(k.bounce, length) :: new, ?_, ?_⟩
    · simp only [Memory.patch, hnew]
      rfl
    · rw [List.forall_mem_cons]
      refine ⟨⟨(k.bounce, bounceSectors * sectorBytes), by simp [BlockDisk.ownAreas], ?_⟩, hown⟩
      exact ⟨Nat.le_refl _, Nat.add_le_add_left hlength _⟩

/-- **`write_blocks` writes all the sectors.** -/
theorem writeLoop_ready (hk : k.Placed) (hthree : count ≠ 0 → 3 ≤ k.queueSize)
    (hhost : Conforms k.sectors k.readOnly host) (hwritable : k.readOnly = false) {c : Bytes}
    (data : Bytes) (hinside : first + count ≤ k.sectors) (fuel done : ℕ) (hdone : done ≤ count)
    (hfuel : count ≤ done + fuel) (h : Ready k old w)
    (hc : w.device.content = c.splice (first * sectorBytes) (done * sectorBytes) data) :
    ∃ w', writeLoop host first count data fuel done w = (⟨count * sectorBytes, .none⟩, w') ∧
      Ready k old w' ∧
      w'.device.content = c.splice (first * sectorBytes) (count * sectorBytes) data := by
  induction fuel generalizing done w with
  | zero =>
    obtain rfl : done = count := by omega
    exact ⟨w, rfl, h, hc⟩
  | succ fuel ih =>
    rw [writeLoop]
    by_cases hlt : done < count
    · obtain ⟨hchunk, hbounce⟩ := chunkOf_le (count - done)
      have hpos := chunkOf_pos (Nat.sub_pos_of_lt hlt)
      have hready := h.bounce hk (Nat.mul_le_mul_right sectorBytes hbounce)
        (data.slice (done * sectorBytes))
      obtain ⟨w', htransfer, h', hcontent, -⟩ :=
        transfer_ready hk (hthree (by omega)) hhost hready (.inr ⟨rfl, hwritable⟩) hbounce
          (show first + done + chunkOf (count - done) ≤ k.sectors by omega)
      have hdisk : w.disk.bounce = k.bounce := by
        rw [h.disk]
        rfl
      -- the chunk goes right behind what was written so far
      have hnext : w'.device.content = c.splice (first * sectorBytes)
          ((done + chunkOf (count - done)) * sectorBytes) data := by
        rw [hcontent, if_neg (by decide), hc, Nat.add_mul, Nat.add_mul, ← Bytes.splice_append]
        apply Bytes.splice_congr
        intro j hj
        rw [hdisk]
        exact Bytes.splice_add hj
      simp only [if_pos hlt, htransfer, Result.ok, beq_self_eq_true, Bool.not_true,
        Bool.false_eq_true, if_false]
      exact ih _ (by omega) (by omega) h' hnext
    · rw [if_neg hlt]
      obtain rfl : done = count := by omega
      exact ⟨w, rfl, h, hc⟩

/-- A call of the driver. -/
inductive Call
  | read (first count : ℕ) (buffer : Bool)
  | write (first count : ℕ) (buffer : Bool) (data : Bytes)

/-- A call: its outcome, and the bytes that were read. -/
def call (host : Host) (w : World) : Call → (Result × Bytes) × World
  | .read first count buffer => readBlocks host w first count buffer
  | .write first count buffer data =>
    let (result, w) := writeBlocks host w first count buffer data
    ((result, fun _ => 0), w)

/-- One call after another. -/
def runCalls (host : Host) : World → List Call → List (Result × Bytes) × World
  | w, [] => ([], w)
  | w, c :: cs =>
    let (outcome, w) := call host w c
    let (outcomes, w) := runCalls host w cs
    (outcome :: outcomes, w)

/-- An array of sectors. -/
structure Sectors where
  count : ℕ
  readOnly : Bool
  content : Bytes

namespace Sectors

/-- What is wrong with the arguments of a call. -/
def refuses (s : Sectors) (first count : ℕ) (buffer : Bool) : Error :=
  if count ≠ 0 ∧ !buffer then .invalidArgument
  else if s.count < first + count ∨ 2 ^ 64 ≤ count * sectorBytes then .outOfRange
  else .none

/-- A call on an array of sectors. -/
def call (s : Sectors) : Call → (Result × Bytes) × Sectors
  | .read first count buffer =>
    let error := s.refuses first count buffer
    if error ≠ .none then ((⟨0, error⟩, fun _ => 0), s)
    else
      ((⟨count * sectorBytes, .none⟩,
        (s.content.slice (first * sectorBytes)).trim (count * sectorBytes)), s)
  | .write first count buffer data =>
    let error := s.refuses first count buffer
    if error ≠ .none then ((⟨0, error⟩, fun _ => 0), s)
    else if s.readOnly then ((⟨0, .unsupported⟩, fun _ => 0), s)
    else
      ((⟨count * sectorBytes, .none⟩, fun _ => 0),
        { s with content :=
            s.content.splice (first * sectorBytes) (count * sectorBytes) data })

/-- One call after another. -/
def run : Sectors → List Call → List (Result × Bytes) × Sectors
  | s, [] => ([], s)
  | s, c :: cs =>
    let (outcome, s) := s.call c
    let (outcomes, s) := run s cs
    (outcome :: outcomes, s)

end Sectors

/-- The array that the driver shows. -/
def shown (k : BlockDisk) (w : World) : Sectors := ⟨k.sectors, k.readOnly, w.device.content⟩

/-- The driver refuses what the array refuses. -/
theorem validate_eq (h : Ready k old w) (buffer : Bool) :
    validate w.disk first count buffer = ⟨0, (shown k w).refuses first count buffer⟩ := by
  rw [h.disk]
  simp only [validate, Sectors.refuses, shown, h.working, Bool.false_eq_true, if_false]
  have hrange : (k.sectors < first ∨ k.sectors - first < count ∨
      (2 ^ 64 - 1) / sectorBytes < count) ↔
      k.sectors < first + count ∨ 2 ^ 64 ≤ count * sectorBytes := by
    rw [Nat.div_lt_iff_lt_mul (by decide)]
    omega
  by_cases hnull : count ≠ 0 ∧ (!buffer) = true
  · simp only [if_pos hnull]
  · simp only [if_neg hnull, hrange]
    by_cases hout : k.sectors < first + count ∨ 2 ^ 64 ≤ count * sectorBytes
    · rw [if_pos hout]
      exact congrArg (Result.mk 0) (if_pos hout).symm
    · rw [if_neg hout]
      exact congrArg (Result.mk 0) (if_neg hout).symm

theorem Sectors.refuses_none {s : Sectors} {buffer : Bool}
    (h : s.refuses first count buffer = .none) : first + count ≤ s.count := by
  unfold refuses at h
  split_ifs at h
  omega

/-- **A call of the driver is the call on the array it shows.** -/
theorem call_ready (hk : k.Placed) (hsize : 3 ≤ k.queueSize ∨ k.sectors = 0)
    (hhost : Conforms k.sectors k.readOnly host) (h : Ready k old w) (c : Call) :
    Ready k old (call host w c).2 ∧
      ((call host w c).1, shown k (call host w c).2) = (shown k w).call c := by
  cases c with
  | read first count buffer =>
    simp only [call, readBlocks, Sectors.call, validate_eq h, Result.ok]
    -- what `validate` lets through is inside the disk
    by_cases hok : (shown k w).refuses first count buffer = .none
    · have hinside : first + count ≤ k.sectors := Sectors.refuses_none hok
      obtain ⟨w', hread, h', hcontent⟩ := readLoop_ready hk (by omega) hhost hinside count 0
        (Nat.zero_le _) (Nat.le_add_left _ _) h rfl
      rw [Nat.zero_mul, Bytes.trim_zero] at hread
      simp only [hok, beq_self_eq_true, Bool.not_true, Bool.false_eq_true, if_false, ne_eq,
        not_true_eq_false, hread]
      exact ⟨h', by rw [shown, hcontent, shown]⟩
    · have hbad : ((shown k w).refuses first count buffer == .none) = false := by simpa using hok
      simp only [hbad, Bool.not_false, if_true, ne_eq, hok, not_false_eq_true]
      exact ⟨h, trivial⟩
  | write first count buffer data =>
    have hdisk : w.disk.readOnly = k.readOnly := by rw [h.disk]
    simp only [call, writeBlocks, Sectors.call, validate_eq h, Result.ok, hdisk]
    by_cases hok : (shown k w).refuses first count buffer = .none
    · have hinside : first + count ≤ k.sectors := Sectors.refuses_none hok
      simp only [hok, beq_self_eq_true, Bool.not_true, Bool.false_eq_true, if_false, ne_eq,
        not_true_eq_false]
      simp only [shown]
      by_cases hwritable : k.readOnly = true
      · simp only [if_pos hwritable]
        exact ⟨h, (if_pos hwritable).symm⟩
      · obtain ⟨w', hwrite, h', hcontent⟩ := writeLoop_ready hk (by omega) hhost
          (Bool.eq_false_iff.mpr hwritable) data hinside count 0 (Nat.zero_le _)
          (Nat.le_add_left _ _) h (by rw [Nat.zero_mul, Bytes.splice_zero])
        simp only [if_neg hwritable, hwrite, hcontent]
        exact ⟨h', (if_neg hwritable).symm⟩
    · have hbad : ((shown k w).refuses first count buffer == .none) = false := by simpa using hok
      simp only [hbad, Bool.not_false, if_true, ne_eq, hok, not_false_eq_true]
      exact ⟨h, trivial⟩

/-- **Calls of the driver, one after another, are those on the array it shows.** -/
theorem runCalls_ready (hk : k.Placed) (hsize : 3 ≤ k.queueSize ∨ k.sectors = 0)
    (hhost : Conforms k.sectors k.readOnly host) (cs : List Call) (h : Ready k old w) :
    Ready k old (runCalls host w cs).2 ∧
      ((runCalls host w cs).1, shown k (runCalls host w cs).2) = (shown k w).run cs := by
  induction cs generalizing w with
  | nil => exact ⟨h, rfl⟩
  | cons c cs ih =>
    obtain ⟨hready, hcall⟩ := call_ready hk hsize hhost h c
    obtain ⟨hready', hrun⟩ := ih hready
    refine ⟨hready', ?_⟩
    simp only [runCalls, Sectors.run, ← hcall, ← hrun]

/-! ## Starting -/

variable {t : Transport} {ring data : ℕ} {memory memory' : Memory} {statuses : List ℕ}

/-- The driver that `start` makes. -/
def started (t : Transport) (ring data : ℕ) : BlockDisk where
  queueSize := queueSize t
  ring := ring
  data := data
  lastUsed := 0
  sectors := t.sectors
  readOnly := t.readOnly
  broken := false

/-- **What a start that succeeds does.** -/
theorem start_some (h : start t (some ring) (some data) memory = (statuses, some k, memory')) :
    t.queueMax ≠ 0 ∧ k = started t ring data ∧
      memory' = memory.patch [⟨k.ring, ringBytes k.queueSize, fun _ => 0⟩,
        ⟨k.available, 2, .ofNat 1⟩] := by
  unfold start at h
  by_cases hmax : t.queueMax = 0
  · rw [if_pos hmax] at h
    cases h
  · by_cases hqueue : t.setQueue = true
    · simp only [if_neg hmax, hqueue, Bool.not_true, Bool.false_eq_true, if_false] at h
      cases h
      exact ⟨hmax, rfl, rfl⟩
    · simp only [if_neg hmax, Bool.eq_false_iff.mpr hqueue, Bool.not_false, if_true] at h
      cases h

theorem queueSize_pos (h : t.queueMax ≠ 0) : 0 < queueSize t ∧ queueSize t < 2 ^ 16 := by
  have hpos : 0 < t.queueMax.toNat := Nat.pos_of_ne_zero fun h0 => h (UInt16.toNat_inj.mp h0)
  have hlt := t.queueMax.toNat_lt
  unfold queueSize
  split
  · exact ⟨hpos, hlt⟩
  · decide

/-- The size that is settled on has room for a request when what the transport reports has. -/
theorem three_le_queueSize : 3 ≤ queueSize t ↔ 3 ≤ t.queueMax.toNat := by
  unfold queueSize
  split
  · exact Iff.rfl
  · next h =>
    simp only [Bool.or_eq_true, decide_eq_true_eq, not_or, Nat.not_lt, preferredQueueSize] at h ⊢
    omega

theorem Transport.sectors_lt (t : Transport) : t.sectors < 2 ^ 64 := by
  have hlow := (t.config32 0).toNat_lt
  have hhigh := (t.config32 4).toNat_lt
  unfold sectors
  omega

/-- The memory that the heap gives to a driver: two pieces without a common byte. -/
structure Given (t : Transport) (ring data : ℕ) : Prop where
  ringBelow : ring + ringBytes (queueSize t) ≤ 2 ^ 64
  dataBelow : data + dataBytes ≤ 2 ^ 64
  apart : Separate (ring, ringBytes (queueSize t)) (data, dataBytes)

theorem Given.placed (h : Given t ring data) (hmax : t.queueMax ≠ 0) :
    (started t ring data).Placed :=
  ⟨(queueSize_pos hmax).1, (queueSize_pos hmax).2, t.sectors_lt, h.ringBelow, h.dataBelow, h.apart⟩

/-- After a start the driver is ready for its first request. -/
theorem ready_start (hfresh : k.lastUsed = 0) (hworking : k.broken = false)
    (hmemory : memory' = memory.patch [⟨k.ring, ringBytes k.queueSize, fun _ => 0⟩,
      ⟨k.available, 2, .ofNat 1⟩]) (content : Bytes) :
    Ready k memory'.written ⟨memory', k, ⟨k.queueSize, k.ring, 0, content⟩, 0⟩ := by
  have hrings := rings_le k.queueSize
  -- the start clears the queue, so both indices are zero
  have hzero : ∀ o, k.available + 2 ≤ o → o + 2 ≤ k.ring + ringBytes k.queueSize →
      memory'.bytes.nat o 2 = 0 := by
    intro o hlow hhigh
    have hcleared : ∀ j < 2, memory'.bytes (o + j) = 0 := by
      intro j hj
      rw [hmemory]
      simp only [BlockDisk.available] at hlow
      refine (Bytes.splice_outside (.inr ?_)).trans ?_
      · simp only [BlockDisk.available]
        omega
      · exact if_pos ⟨by simp only; omega, by simp only; omega⟩
    have h0 := hcleared 0 (by decide)
    have h1 := hcleared 1 (by decide)
    rw [Nat.add_zero] at h0
    simp [Bytes.nat, h0, h1]
  refine ⟨?_, hworking, ?_, rfl, rfl, [], rfl, by simp⟩
  · rw [hzero (k.used + 2) (by simp only [BlockDisk.used, BlockDisk.available]; omega)
      (by simp only [BlockDisk.used]; omega), ← hfresh]
  · exact hzero _ (Nat.le_refl _) (by simp only [BlockDisk.available]; omega)

/-- A request stores its third descriptor, whatever the size of the queue. -/
theorem transfer_written (host : Host) (w : World) (type first count : ℕ) :
    ∃ before after, (transfer host w type first count).2.memory.written =
      before ++ (w.disk.ring + 32, 16) :: after ++ w.memory.written := by
  refine ⟨[(w.disk.available + 2, 2), (w.disk.available + 2 * (2 + (w.memory.patch
    (w.disk.describe type first (count * sectorBytes))).bytes.nat (w.disk.available + 2) 2 %
      w.disk.queueSize), 2)], [(w.disk.ring + 16, 16), (w.disk.ring, 16), (w.disk.status, 1),
      (w.disk.data, 16)], ?_⟩
  unfold transfer
  simp only
  split_ifs <;> rfl

/-- **Starting, and every sequence of calls**: the start stores into the memory of the queue, the
parts of the memory are disjoint, the calls are those on an array of sectors, and what they store
is in the driver's own parts of the memory. -/
structure Transfers (t : Transport) (host : Host) (k : BlockDisk) (memory memory' : Memory) :
    Prop where
  start : ∃ new, memory'.written = new ++ memory.written ∧ ∀ p ∈ new, Inside p k.ringBlock
  disjoint : (k.usedArea :: k.ownAreas).Pairwise Separate
  inside : ∀ area ∈ k.usedArea :: k.ownAreas, Inside area k.ringBlock ∨ Inside area k.dataBlock
  calls : ∀ content cs,
    let after := runCalls host ⟨memory', k, ⟨k.queueSize, k.ring, 0, content⟩, 0⟩ cs
    (after.1, after.2.device.content) =
        ((Sectors.run ⟨t.sectors, t.readOnly, content⟩ cs).1,
          (Sectors.run ⟨t.sectors, t.readOnly, content⟩ cs).2.content) ∧
      ∃ new, after.2.memory.written = new ++ memory'.written ∧
        ∀ p ∈ new, ∃ area ∈ k.ownAreas, Inside p area

/-- With less than three entries the first request stores outside of the driver's parts. -/
theorem read_outside (hk : k.Placed) (hsmall : k.queueSize < 3) (hsectors : k.sectors ≠ 0)
    (hworking : k.broken = false) (s : DeviceState) {new : List (ℕ × ℕ)}
    (hnew : (runCalls host ⟨memory, k, s, 0⟩ [.read 0 1 true]).2.memory.written =
      new ++ memory.written) :
    ¬∀ p ∈ new, ∃ area ∈ k.ownAreas, Inside p area := by
  intro hown
  have hvalid : validate k 0 1 true = ⟨0, .none⟩ := by
    rw [validate, if_neg (by simp), hworking, if_neg (by simp), if_neg]
    norm_num
    omega
  have hchunk : chunkOf (1 - 0) = 1 := rfl
  have hone : (runCalls host ⟨memory, k, s, 0⟩ [.read 0 1 true]).2.memory.written =
      (transfer host ⟨memory, k, s, 0⟩ requestRead 0 1).2.memory.written := by
    generalize htransfer : transfer host ⟨memory, k, s, 0⟩ requestRead 0 1 = out
    simp only [runCalls, call, readBlocks, hvalid, Result.ok, beq_self_eq_true, Bool.not_true,
      Bool.false_eq_true, if_false, readLoop, Nat.lt_one_iff, if_true, hchunk, Nat.add_zero,
      htransfer]
    split_ifs <;> rfl
  obtain ⟨before, after, hwritten⟩ :=
    transfer_written host ⟨memory, k, s, 0⟩ requestRead 0 1
  rw [hone, hwritten] at hnew
  -- the third descriptor of the chain
  have hmem : (k.ring + 32, 16) ∈ new := by
    rw [← List.append_cancel_right hnew]
    simp
  obtain ⟨area, harea, hinside⟩ := hown _ hmem
  have hrings := rings_le k.queueSize
  have hapart := hk.apart
  have hsize := hk.size
  simp only [Separate, BlockDisk.ringBlock, BlockDisk.dataBlock, dataBytes] at hapart
  simp only [BlockDisk.ownAreas, List.mem_cons, List.not_mem_nil, or_false] at harea
  rcases harea with rfl | rfl | rfl | rfl | rfl <;>
    simp only [Inside, BlockDisk.available, BlockDisk.status, BlockDisk.bounce] at hinside <;> omega

/-- **The driver behaves like an array of sectors if and only if the transport reports a queue of at
least three entries**, or the device no sectors: in memory of its own, with a device that follows
the rules. -/
theorem start_transfers
    (hstart : start t (some ring) (some data) memory = (statuses, some k, memory'))
    (hgiven : Given t ring data) (hhost : Conforms t.sectors t.readOnly host) :
    Transfers t host k memory memory' ↔ 3 ≤ t.queueMax.toNat ∨ t.sectors = 0 := by
  obtain ⟨hmax, hk, hmemory⟩ := start_some hstart
  have hsize : 3 ≤ k.queueSize ↔ 3 ≤ t.queueMax.toNat := by rw [hk, started, three_le_queueSize]
  have hplaced : k.Placed := hk ▸ hgiven.placed hmax
  have hsectors : k.sectors = t.sectors := by rw [hk, started]
  have hreadOnly : k.readOnly = t.readOnly := by rw [hk, started]
  have hworking : k.broken = false := by rw [hk, started]
  rw [← hsize, ← hsectors]
  constructor
  · intro h
    -- one read shows it
    by_contra hcond
    obtain ⟨-, new, hnew, hown⟩ := h.calls (fun _ => 0) [.read 0 1 true]
    exact read_outside hplaced (by omega) (by omega) hworking _ hnew hown
  · intro hsize
    obtain ⟨hdisjoint, hinside⟩ := hplaced.areas
    refine ⟨?_, hdisjoint, hinside, ?_⟩
    · refine ⟨[(k.available, 2), (k.ring, ringBytes k.queueSize)], ?_, ?_⟩
      · rw [hmemory]
        rfl
      · have hrings := rings_le k.queueSize
        simp only [List.forall_mem_cons, Inside, BlockDisk.ringBlock, BlockDisk.available,
          List.not_mem_nil, false_implies, implies_true, and_true]
        omega
    · intro content cs
      have hready := ready_start (k := k) (by rw [hk, started]) hworking hmemory content
      obtain ⟨hready', hrun⟩ := runCalls_ready hplaced hsize
        (by rw [hsectors, hreadOnly]; exact hhost) cs hready
      refine ⟨?_, hready'.own⟩
      simp only [shown, hsectors, hreadOnly] at hrun
      rw [← hrun]

/-- A transport with a queue of so many entries and eight sectors. -/
def sampleTransport (queueMax : UInt16) : Transport where
  deviceFeatures := 0
  queueMax
  queueSizeFixed := true
  setQueue := true
  config32 offset := if offset = 0 then 8 else 0

theorem start_transfers_eight :
    Transfers (sampleTransport 8) plainHost (started (sampleTransport 8) 0x10000 0x2000)
      ⟨fun _ => 0, []⟩
      (start (sampleTransport 8) (some 0x10000) (some 0x2000) ⟨fun _ => 0, []⟩).2.2 := by
  have hstart : start (sampleTransport 8) (some 0x10000) (some 0x2000) ⟨fun _ => 0, []⟩ =
      ([0, 1, 3, 7], some (started (sampleTransport 8) 0x10000 0x2000),
        (start (sampleTransport 8) (some 0x10000) (some 0x2000) ⟨fun _ => 0, []⟩).2.2) := rfl
  have hgiven : Given (sampleTransport 8) 0x10000 0x2000 :=
    ⟨by decide, by decide, by unfold Separate; decide⟩
  exact (start_transfers hstart hgiven (plainHost_conforms _ _)).mpr (.inl (by decide))

/-- **With two entries the driver stores outside of its parts of the memory**: the third descriptor
is half over the available ring and half over nothing. -/
theorem start_twoEntries :
    let k := started (sampleTransport 2) 0x10000 0x2000
    let memory' := (start (sampleTransport 2) (some 0x10000) (some 0x2000) ⟨fun _ => 0, []⟩).2.2
    start (sampleTransport 2) (some 0x10000) (some 0x2000) ⟨fun _ => 0, []⟩ =
        ([0, 1, 3, 7], some k, memory') ∧
      Given (sampleTransport 2) 0x10000 0x2000 ∧
      Conforms (sampleTransport 2).sectors (sampleTransport 2).readOnly plainHost ∧
      k.ownAreas = [(0x10000, 32), (0x10020, 10), (0x2000, 16), (0x2010, 1), (0x2020, 16384)] ∧
      (∀ content, (0x10020, 16) ∈ (transfer plainHost
        ⟨memory', k, ⟨2, 0x10000, 0, content⟩, 0⟩ requestRead 0 1).2.memory.written) ∧
      ¬Transfers (sampleTransport 2) plainHost k ⟨fun _ => 0, []⟩ memory' := by
  intro k memory'
  have hgiven : Given (sampleTransport 2) 0x10000 0x2000 :=
    ⟨by decide, by decide, by unfold Separate; decide⟩
  refine ⟨rfl, hgiven, plainHost_conforms _ _, rfl, fun content => ?_, fun h => ?_⟩
  · obtain ⟨before, after, hwritten⟩ := transfer_written plainHost
      ⟨memory', k, ⟨2, 0x10000, 0, content⟩, 0⟩ requestRead 0 1
    rw [hwritten]
    simp [k, started]
  · have hplaced : k.Placed := hgiven.placed (by decide)
    obtain ⟨-, new, hnew, hown⟩ := h.calls (fun _ => 0) [.read 0 1 true]
    clear_value memory'
    exact read_outside hplaced (by decide) (by decide) rfl _ hnew hown

end ShirleysOS.Virtio
