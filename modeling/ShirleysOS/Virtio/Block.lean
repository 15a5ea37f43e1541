import ShirleysOS.Lib.Patches
import ShirleysOS.Storage.BlockDevice

/-!
# The virtio block driver

The driver and the device share a split virtqueue: a table of descriptors and a ring of available
requests, which the driver writes, and a ring of used ones, which the device writes. One request
is in flight at a time: its header, a bounce buffer for its data and a status byte are in a second
piece of memory. Source: `drivers/virtio/block.cpp`, `include/shirley/virtio.hpp`.

Memory gives every address a byte. What the driver stores is also noted, place by place. The
device answers the requests at times of its choice; here it is any function, and `Conforms` says
which of them follow the rules of the queue.
-/

namespace ShirleysOS.Virtio

open Lib Storage

/-! ## Memory -/

/-- The memory, and the places at which the driver has stored something, the latest first. -/
structure Memory where
  bytes : Bytes
  written : List (ℕ × ℕ)

/-- Several stores of the driver. -/
def Memory.patch (m : Memory) (ps : List Patch) : Memory where
  bytes := m.bytes.patch ps
  written := (ps.map Patch.place).reverse ++ m.written

/-! ## Layout -/

abbrev queueAlignment : ℕ := 4096

abbrev sectorBytes : ℕ := 512

abbrev bounceSectors : ℕ := 32

abbrev preferredQueueSize : ℕ := 8

abbrev pollLimit : ℕ := 2 ^ 28

/-- `align_up`, to a power of two. -/
def alignUp (value alignment : ℕ) : ℕ := (value + alignment - 1) / alignment * alignment

/-- Where the used ring of a queue of `size` entries is in its memory. -/
def usedOffset (size : ℕ) : ℕ := alignUp (16 * size + (6 + 2 * size)) queueAlignment

/-- The memory of a queue of `size` entries. -/
def ringBytes (size : ℕ) : ℕ := usedOffset size + alignUp (6 + 8 * size) queueAlignment

/-- The memory of the header, the status and the bounce buffer. -/
def dataBytes : ℕ := 16 + 16 + bounceSectors * sectorBytes

/-- `Descriptor`. -/
structure Descriptor where
  address : ℕ
  length : ℕ
  flags : ℕ
  next : ℕ
deriving DecidableEq, Repr

abbrev descriptorNext : ℕ := 1

abbrev descriptorWrite : ℕ := 2

/-- The sixteen bytes of a descriptor. -/
def Descriptor.bytes (d : Descriptor) : Bytes :=
  Bytes.patch (fun _ => 0) [⟨0, 8, .ofNat d.address⟩, ⟨8, 4, .ofNat d.length⟩,
    ⟨12, 2, .ofNat d.flags⟩, ⟨14, 2, .ofNat d.next⟩]

/-- The sixteen bytes of a `RequestHeader`. -/
def headerBytes (type sector : ℕ) : Bytes :=
  Bytes.patch (fun _ => 0) [⟨0, 4, .ofNat type⟩, ⟨4, 4, .ofNat 0⟩, ⟨8, 8, .ofNat sector⟩]

abbrev requestRead : ℕ := 0

abbrev requestWrite : ℕ := 1

/-! ## The driver -/

/-- `Transport`, as far as `start` goes. -/
structure Transport where
  deviceFeatures : UInt32
  queueMax : UInt16
  queueSizeFixed : Bool
  /-- The answer to `set_queue`. -/
  setQueue : Bool
  config32 : ℕ → UInt32

abbrev featureReadOnly : UInt32 := 0x20

/-- The feature bit that forbids writing. -/
def Transport.readOnly (t : Transport) : Bool := t.deviceFeatures &&& featureReadOnly != 0

/-- The capacity in the configuration space. -/
def Transport.sectors (t : Transport) : ℕ :=
  (t.config32 0).toNat + (t.config32 4).toNat * 2 ^ 32

/-- `BlockDisk`, once it has started. -/
structure BlockDisk where
  queueSize : ℕ
  ring : ℕ
  data : ℕ
  lastUsed : ℕ
  sectors : ℕ
  readOnly : Bool
  broken : Bool
deriving DecidableEq, Repr

namespace BlockDisk

/-- `available_`. -/
def available (k : BlockDisk) : ℕ := k.ring + 16 * k.queueSize

/-- `used_`. -/
def used (k : BlockDisk) : ℕ := k.ring + usedOffset k.queueSize

/-- `status_`. -/
def status (k : BlockDisk) : ℕ := k.data + 16

/-- `bounce_`. -/
def bounce (k : BlockDisk) : ℕ := k.data + 32

end BlockDisk

abbrev statusAcknowledge : ℕ := 1

abbrev statusDriver : ℕ := 2

abbrev statusDriverOk : ℕ := 4

abbrev statusFailed : ℕ := 128

/-- The size of the queue that `start` chooses. -/
def queueSize (t : Transport) : ℕ :=
  if t.queueSizeFixed || t.queueMax.toNat < preferredQueueSize then t.queueMax.toNat
  else preferredQueueSize

/-- `start`: the device statuses it sets, the driver, and the memory. `ring` and `data` are what
the heap gives it. -/
def start (t : Transport) (ring data : Option ℕ) (m : Memory) :
    List ℕ × Option BlockDisk × Memory :=
  let statuses := [0, statusAcknowledge, statusAcknowledge + statusDriver]
  if t.queueMax = 0 then (statuses ++ [statusFailed], none, m)
  else
    match ring, data with
    | some ring, some data =>
      let k : BlockDisk := {
        queueSize := queueSize t
        ring
        data
        lastUsed := 0
        sectors := t.sectors
        readOnly := t.readOnly
        broken := false }
      let m := m.patch [⟨ring, ringBytes k.queueSize, fun _ => 0⟩, ⟨k.available, 2, .ofNat 1⟩]
      if !t.setQueue then (statuses ++ [statusFailed], none, m)
      else
        (statuses ++ [statusAcknowledge + statusDriver + statusDriverOk], some k, m)
    | _, _ => (statuses ++ [statusFailed], none, m)

/-! ## The device -/

/-- What a device keeps: the queue it was told of, the requests it has seen, and its sectors. -/
structure DeviceState where
  size : ℕ
  ring : ℕ
  seen : ℕ
  content : Bytes

/-- A device: how many times the driver polls before the `n`-th request is answered, and what the
device does then to its state and to the memory. -/
structure Host where
  delay : ℕ → ℕ
  answer : ℕ → DeviceState → Bytes → DeviceState × Bytes

/-- The memory, the driver, the device, and how many requests there have been. -/
structure World where
  memory : Memory
  disk : BlockDisk
  device : DeviceState
  requests : ℕ

/-! ## Requests -/

/-- `validate`. -/
def validate (k : BlockDisk) (first count : ℕ) (buffer : Bool) : Result :=
  if count ≠ 0 ∧ !buffer then ⟨0, .invalidArgument⟩
  else if k.broken then ⟨0, .deviceError⟩
  else if k.sectors < first ∨ k.sectors - first < count ∨ (2 ^ 64 - 1) / sectorBytes < count then
    ⟨0, .outOfRange⟩
  else ⟨0, .none⟩

/-- The header, the status and the three descriptors of a request. -/
def BlockDisk.describe (k : BlockDisk) (type first bytes : ℕ) : List Patch :=
  let flags := descriptorNext + if type = requestRead then descriptorWrite else 0
  [⟨k.data, 16, headerBytes type first⟩, ⟨k.status, 1, fun _ => 0xFF⟩,
    ⟨k.ring, 16, (Descriptor.mk k.data 16 descriptorNext 1).bytes⟩,
    ⟨k.ring + 16, 16, (Descriptor.mk k.bounce bytes flags 2).bytes⟩,
    ⟨k.ring + 32, 16, (Descriptor.mk k.status 1 descriptorWrite 0).bytes⟩]

/-- The loop that polls the used ring, with the polls that are left: whether the request was
answered. -/
def pollLoop (host : Host) (n used last : ℕ) :
    ℕ → ℕ → DeviceState → Bytes → Bool × DeviceState × Bytes
  | 0, _, s, m => (false, s, m)
  | left + 1, polls, s, m =>
    let (s, m) := if polls = host.delay n then host.answer n s m else (s, m)
    if m.nat (used + 2) 2 ≠ last then (true, s, m)
    else pollLoop host n used last left (polls + 1) s m

/-- `transfer`. -/
def transfer (host : Host) (w : World) (type first count : ℕ) : Result × World :=
  let k := w.disk
  let bytes := count * sectorBytes
  let memory := w.memory.patch (k.describe type first bytes)
  let index := memory.bytes.nat (k.available + 2) 2
  let memory := memory.patch [⟨k.available + 2 * (2 + index % k.queueSize), 2, .ofNat 0⟩,
    ⟨k.available + 2, 2, .ofNat (index + 1)⟩]
  let (answered, device, m) :=
    pollLoop host w.requests k.used k.lastUsed pollLimit 0 w.device memory.bytes
  let memory := { memory with bytes := m }
  if !answered then
    (⟨0, .deviceError⟩, ⟨memory, { k with broken := true }, device, w.requests + 1⟩)
  else
    let w : World :=
      ⟨memory, { k with lastUsed := (k.lastUsed + 1) % 2 ^ 16 }, device, w.requests + 1⟩
    if m k.status ≠ 0 then (⟨0, .deviceError⟩, w) else (⟨bytes, .none⟩, w)

/-- How many sectors the next request moves. -/
def chunkOf (left : ℕ) : ℕ := if left < bounceSectors then left else bounceSectors

/-- The loop of `read_blocks`, with the bytes read so far. -/
def readLoop (host : Host) (first count : ℕ) : ℕ → ℕ → Bytes → World → (Result × Bytes) × World
  | 0, _, out, w => ((⟨count * sectorBytes, .none⟩, out), w)
  | fuel + 1, done, out, w =>
    if done < count then
      let chunk := chunkOf (count - done)
      let (result, w) := transfer host w requestRead (first + done) chunk
      if !result.ok then ((⟨done * sectorBytes, result.error⟩, out), w)
      else
        readLoop host first count fuel (done + chunk)
          (out.splice (done * sectorBytes) (chunk * sectorBytes)
            (w.memory.bytes.slice w.disk.bounce)) w
    else ((⟨count * sectorBytes, .none⟩, out), w)

/-- `read_blocks`: the outcome, and the bytes read. -/
def readBlocks (host : Host) (w : World) (first count : ℕ) (buffer : Bool) :
    (Result × Bytes) × World :=
  let checked := validate w.disk first count buffer
  if !checked.ok then ((checked, fun _ => 0), w)
  else readLoop host first count count 0 (fun _ => 0) w

/-- The loop of `write_blocks`. -/
def writeLoop (host : Host) (first count : ℕ) (data : Bytes) : ℕ → ℕ → World → Result × World
  | 0, _, w => (⟨count * sectorBytes, .none⟩, w)
  | fuel + 1, done, w =>
    if done < count then
      let chunk := chunkOf (count - done)
      let memory := w.memory.patch
        [⟨w.disk.bounce, chunk * sectorBytes, data.slice (done * sectorBytes)⟩]
      let (result, w) := transfer host { w with memory } requestWrite (first + done) chunk
      if !result.ok then (⟨done * sectorBytes, result.error⟩, w)
      else writeLoop host first count data fuel (done + chunk) w
    else (⟨count * sectorBytes, .none⟩, w)

/-- `write_blocks`. -/
def writeBlocks (host : Host) (w : World) (first count : ℕ) (buffer : Bool) (data : Bytes) :
    Result × World :=
  let checked := validate w.disk first count buffer
  if !checked.ok then (checked, w)
  else if w.disk.readOnly then (⟨0, .unsupported⟩, w)
  else writeLoop host first count data count 0 w

/-! ## Devices that follow the rules -/

/-- The descriptor at `index` of the table at `ring`. -/
def descriptorAt (m : Bytes) (ring index : ℕ) : Descriptor :=
  let d := ring + 16 * index
  ⟨m.nat d 8, m.nat (d + 8) 4, m.nat (d + 12) 2, m.nat (d + 14) 2⟩

/-- A descriptor is not the last of its chain. -/
def Descriptor.goesOn (d : Descriptor) : Bool := d.flags % 2 == 1

/-- The device may write the memory of a descriptor. -/
def Descriptor.writable (d : Descriptor) : Bool := d.flags / 2 % 2 == 1

/-- A request as the device finds it. -/
structure Request where
  head : ℕ
  type : ℕ
  sector : ℕ
  data : ℕ
  length : ℕ
  writable : Bool
  status : ℕ
deriving DecidableEq, Repr

/-- The request in the next slot of the available ring: a chain of a header, the data and a status
byte. -/
def requestAt (m : Bytes) (s : DeviceState) : Option Request :=
  let head := m.nat (s.ring + 16 * s.size + 4 + 2 * (s.seen % s.size)) 2
  let header := descriptorAt m s.ring head
  let data := descriptorAt m s.ring header.next
  let status := descriptorAt m s.ring data.next
  if head < s.size ∧ header.goesOn ∧ !header.writable ∧ header.length = 16 ∧
      header.next < s.size ∧ data.goesOn ∧ data.next < s.size ∧ status.writable ∧
      status.length = 1 then
    some {
      head
      type := m.nat header.address 4
      sector := m.nat (header.address + 8) 8
      data := data.address
      length := data.length
      writable := data.writable
      status := status.address }
  else none

/-- The used ring of the device. -/
def DeviceState.used (s : DeviceState) : ℕ := s.ring + usedOffset s.size

/-- A request that a device of so many sectors can serve: whole sectors that it has, data that it
may write when it is to be read and may not when it is to be written, and memory apart from the
used ring. -/
structure Request.Valid (sectors : ℕ) (readOnly : Bool) (s : DeviceState) (r : Request) :
    Prop where
  type : r.type = requestRead ∧ r.writable = true ∨
    r.type = requestWrite ∧ r.writable = false ∧ readOnly = false
  whole : r.length % sectorBytes = 0
  inside : r.sector * sectorBytes + r.length ≤ sectors * sectorBytes
  status : r.status < r.data ∨ r.data + r.length ≤ r.status
  statusUsed : r.status < s.used ∨ s.used + (6 + 8 * s.size) ≤ r.status
  dataUsed : r.data + r.length ≤ s.used ∨ s.used + (6 + 8 * s.size) ≤ r.data

/-- **What a device that follows the rules does with a request**: it moves the data, says in the
status that all went well, and puts the head of the chain into the used ring. It changes nothing
but the used ring, the status and the memory it may write. -/
structure Answered (s : DeviceState) (m : Bytes) (r : Request) (s' : DeviceState) (m' : Bytes) :
    Prop where
  size : s'.size = s.size
  ring : s'.ring = s.ring
  seen : s'.seen = (s.seen + 1) % 2 ^ 16
  content : s'.content = if r.type = requestRead then s.content
    else s.content.splice (r.sector * sectorBytes) r.length (m.slice r.data)
  data : r.type = requestRead → ∀ j < r.length, m' (r.data + j) =
    s.content (r.sector * sectorBytes + j)
  status : m' r.status = 0
  element : m'.nat (s.used + 4 + 8 * (m.nat (s.used + 2) 2 % s.size)) 4 = r.head
  used : m'.nat (s.used + 2) 2 = (m.nat (s.used + 2) 2 + 1) % 2 ^ 16
  frame : ∀ x, x < s.used ∨ s.used + (6 + 8 * s.size) ≤ x → x ≠ r.status →
    (r.writable = false ∨ x < r.data ∨ r.data + r.length ≤ x) → m' x = m x

/-- **The device follows the rules of the queue** and answers before the driver gives up. -/
structure Conforms (sectors : ℕ) (readOnly : Bool) (host : Host) : Prop where
  delay : ∀ n, host.delay n < pollLimit
  answer : ∀ n s m r, m.nat (s.ring + 16 * s.size + 2) 2 = (s.seen + 1) % 2 ^ 16 →
    requestAt m s = some r → r.Valid sectors readOnly s →
    Answered s m r (host.answer n s m).1 (host.answer n s m).2

/-! ## A device -/

/-- A request that is found is served at once. -/
def serve (s : DeviceState) (m : Bytes) (r : Request) : DeviceState × Bytes :=
  let index := m.nat (s.used + 2) 2
  let moved :=
    if r.type = requestRead then
      m.splice r.data r.length (s.content.slice (r.sector * sectorBytes))
    else m
  ({ s with
      seen := (s.seen + 1) % 2 ^ 16
      content := if r.type = requestRead then s.content
        else s.content.splice (r.sector * sectorBytes) r.length (m.slice r.data) },
    moved.patch [⟨r.status, 1, fun _ => 0⟩,
      ⟨s.used + 4 + 8 * (index % s.size), 4, .ofNat r.head⟩,
      ⟨s.used + 2, 2, .ofNat (index + 1)⟩])

/-- A device that answers at the first poll. -/
def plainHost : Host where
  delay _ := 0
  answer _ s m :=
    match requestAt m s with
    | none => (s, m)
    | some r => serve s m r

variable {s : DeviceState} {m : Bytes} {r : Request} {sectors : ℕ} {readOnly : Bool}

theorem requestAt_head (h : requestAt m s = some r) : r.head < s.size ∧ r.head < 2 ^ 16 := by
  unfold requestAt at h
  simp only at h
  split_ifs at h with hfound
  cases h
  exact ⟨hfound.1, Bytes.nat_lt⟩

theorem serve_apart (hhead : r.head < s.size) (h : r.Valid sectors readOnly s) (index : ℕ) :
    [(⟨r.status, 1, fun _ => 0⟩ : Patch),
      ⟨s.used + 4 + 8 * (index % s.size), 4, .ofNat r.head⟩,
      ⟨s.used + 2, 2, .ofNat (index + 1)⟩].Pairwise Patch.Apart := by
  have hindex := Nat.mod_lt index (Nat.zero_lt_of_lt hhead)
  have hstatus := h.statusUsed
  simp only [List.pairwise_cons, List.forall_mem_cons, Patch.Apart, List.not_mem_nil,
    false_implies, implies_true, List.Pairwise.nil, and_true]
  omega

theorem serve_answered (hhead : r.head < s.size) (hhead' : r.head < 2 ^ 16)
    (h : r.Valid sectors readOnly s) : Answered s m r (serve s m r).1 (serve s m r).2 := by
  -- the stores of the device do not overlap, so each can be read back
  have happart := serve_apart hhead h (m.nat (s.used + 2) 2)
  have hindex := Nat.mod_lt (m.nat (s.used + 2) 2) (Nat.zero_lt_of_lt hhead)
  obtain ⟨htype, -, -, hstatus, hstatusUsed, hdataUsed⟩ := h
  constructor
  case size => rfl
  case ring => rfl
  case seen => rfl
  case content => rfl
  case data =>
    intro hread j hj
    refine (Bytes.patch_outside ?_).trans ?_
    · simp only [List.forall_mem_cons, Patch.Avoids, List.not_mem_nil, false_implies,
        implies_true, and_true]
      omega
    · rw [if_pos hread, Bytes.splice_add hj]
      rfl
  case status =>
    exact Bytes.patch_apply (j := 0) happart (p := ⟨r.status, 1, fun _ => 0⟩) (by simp)
      Nat.one_pos
  case element =>
    have hread := Bytes.nat_patch (o := 0) (w := 4) (m := if r.type = requestRead then
      m.splice r.data r.length (s.content.slice (r.sector * sectorBytes)) else m) happart
      (p := ⟨s.used + 4 + 8 * (m.nat (s.used + 2) 2 % s.size), 4, .ofNat r.head⟩) (by simp)
      (Nat.le_refl _)
    rw [Bytes.nat_ofNat, Nat.mul_zero, Nat.pow_zero, Nat.div_one,
      Nat.mod_eq_of_lt (Nat.lt_trans hhead' (by decide))] at hread
    exact hread
  case used =>
    have hread := Bytes.nat_patch (o := 0) (w := 2) (m := if r.type = requestRead then
      m.splice r.data r.length (s.content.slice (r.sector * sectorBytes)) else m) happart
      (p := ⟨s.used + 2, 2, .ofNat (m.nat (s.used + 2) 2 + 1)⟩) (by simp) (Nat.le_refl _)
    rw [Bytes.nat_ofNat, Nat.mul_zero, Nat.pow_zero, Nat.div_one] at hread
    exact hread
  case frame =>
    intro x hused hne hdata
    refine (Bytes.patch_outside ?_).trans ?_
    · simp only [List.forall_mem_cons, Patch.Avoids, List.not_mem_nil, false_implies,
        implies_true, and_true]
      omega
    · split
      · rename_i hread
        refine Bytes.splice_outside (hdata.resolve_left fun hnot => ?_)
        rcases htype with htype | htype
        · rw [htype.2] at hnot
          cases hnot
        · rw [htype.1] at hread
          cases hread
      · rfl

/-- **The device follows the rules.** -/
theorem plainHost_conforms (sectors : ℕ) (readOnly : Bool) :
    Conforms sectors readOnly plainHost where
  delay _ := Nat.two_pow_pos 28
  answer n s m r _ hr hvalid := by
    obtain ⟨hhead, hhead'⟩ := requestAt_head hr
    simp only [plainHost, hr]
    exact serve_answered hhead hhead' hvalid

end ShirleysOS.Virtio
