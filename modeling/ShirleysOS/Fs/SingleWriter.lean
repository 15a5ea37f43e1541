import ShirleysOS.Ext4.Effects
import ShirleysOS.Fs.DeviceMount

/-!
# One writer per device

Whatever is mounted where, at most one slot writes a device. A writable slot has VolumeDirty on
its device, and its cache cannot take it away. A slot that is not writable has nothing to write
back. So while a device has a writer, every other slot leaves the device as it is, and a further
mount of it finds VolumeDirty and stays read-only.
-/

namespace ShirleysOS.Fs

open Lib Storage Exfat

variable {ι : Type}

/-! ## The invariant -/

/-- What holds of a slot that is used, with the device as it is now. -/
inductive Slot.Good (slot : Slot ι) : Prop
  | reading (refused : slot.active.writable = false)
      (kept : (unchanged slot.cache.device.blockSize slot.cache.device.content).Kept
        slot.cache.device.blockSize slot.cache)
  | writing (g : Volume) (s : State) (volume : slot.active = .exfat g s)
      (granted : g.writable = true) (low : 512 ≤ slot.cache.device.blockSize)
      (laid : g.Laid slot.cache.device.blockSize)
      (kept : (flagged slot.cache.device.blockSize).Kept slot.cache.device.blockSize slot.cache)

/-- What a call may leave in a slot, on a device that was `d` before. -/
structure Slot.Leaves (d : Device) (slot : Slot ι) : Prop where
  works : slot.cache.device.Works
  blockSize : slot.cache.device.blockSize = d.blockSize
  good : slot.used = true → slot.Good
  idle : slot.used = false → slot.active = .none

/-- A call that leaves the device alone, and the slot without a writer. -/
structure Slot.Calm (d : Device) (slot : Slot ι) : Prop where
  content : slot.cache.device.content = d.content
  refused : slot.active.writable = false

/-- **The invariant.** -/
structure System.Safe (sys : System ι) : Prop where
  works : ∀ d, (sys.devices d).Works
  bound : ∀ i, (sys.slots i).used = true → ∃ d, (sys.slots i).blocks = some d
  good : ∀ i, (sys.slots i).used = true → (sys.slot i).Good
  idle : ∀ i, (sys.slots i).used = false → (sys.slots i).active = .none
  single : ∀ d i j, sys.Writes i d → sys.Writes j d → i = j

variable {sys : System ι} {i j : Fin maxDeviceMounts} {slot : Slot ι} {d : ι}

theorem System.slot_device (h : (sys.slots i).blocks = some d) :
    (sys.slot i).cache.device = sys.devices d := by
  rw [System.slot, h]
  rfl

/-- A device that is written has VolumeDirty. -/
theorem System.Safe.flagged (h : sys.Safe) (hwrites : sys.Writes i d) :
    Flagged (sys.devices d).content := by
  obtain ⟨hblocks, hwritable⟩ := hwrites
  have hused : (sys.slots i).used = true := by
    by_contra hoff
    rw [h.idle i (by simpa using hoff)] at hwritable
    exact absurd hwritable (by decide)
  have hdevice := System.slot_device hblocks
  cases h.good i hused with
  | reading refused _ => exact absurd (hwritable.symm.trans refused) (by decide)
  | writing g s volume granted low laid kept =>
    rw [← hdevice]
    exact kept.device.2.2

/-- A slot stays good when another slot leaves its device as it is. -/
theorem Slot.Good.device (h : slot.Good) {device : Device} (hworks : device.Works)
    (hsize : device.blockSize = slot.cache.device.blockSize)
    (hcontent : slot.active.writable = true → device.content = slot.cache.device.content) :
    ({ slot with cache := { slot.cache with device } } : Slot ι).Good := by
  cases h with
  | reading refused kept =>
    refine .reading refused ⟨kept.one, ?_, kept.buffers, hworks, rfl, rfl⟩
    exact kept.bytes.trans hsize.symm
  | writing g s volume granted low laid kept =>
    have hsame := hcontent (by rw [volume]; exact granted)
    refine .writing g s volume granted (hsize ▸ low) (hsize ▸ laid)
      ⟨kept.one, kept.bytes.trans hsize.symm, kept.buffers, hworks, rfl, ?_⟩
    rw [hsame]
    exact kept.device.2.2

/-! ## A call in one slot -/

section Store

variable [DecidableEq ι]

theorem System.store_slots_self : (sys.store i slot).slots i = slot := Function.update_self _ _ _

theorem System.store_slots_of_ne (h : j ≠ i) : (sys.store i slot).slots j = sys.slots j :=
  Function.update_of_ne h _ _

theorem System.store_devices_self (h : slot.blocks = some d) :
    (sys.store i slot).devices d = slot.cache.device := by
  simp only [System.store, h, Function.update_self]

theorem System.store_devices_of_ne {e : ι} (h : slot.blocks = some d) (hne : e ≠ d) :
    (sys.store i slot).devices e = sys.devices e := by
  simp only [System.store, h, Function.update_of_ne hne]

/-- Another slot that writes a device wrote it before. -/
theorem System.store_writes_of_ne {e : ι} (h : j ≠ i) :
    (sys.store i slot).Writes j e ↔ sys.Writes j e := by
  rw [System.Writes, System.Writes, System.store_slots_of_ne h]

/-- **A call in one slot keeps the invariant**, if it leaves the device alone when another slot
writes it. -/
theorem System.Safe.store (h : sys.Safe) (hblocks : slot.blocks = some d)
    (hleaves : slot.Leaves (sys.devices d))
    (hcalm : ∀ j ≠ i, sys.Writes j d → slot.Calm (sys.devices d)) : (sys.store i slot).Safe where
  works e := by
    by_cases he : e = d
    · rw [he, System.store_devices_self hblocks]
      exact hleaves.works
    · rw [System.store_devices_of_ne hblocks he]
      exact h.works e
  bound j hused := by
    by_cases hj : j = i
    · rw [hj, System.store_slots_self]
      exact ⟨d, hblocks⟩
    · rw [System.store_slots_of_ne hj] at hused ⊢
      exact h.bound j hused
  good j hused := by
    by_cases hj : j = i
    · have hself : (sys.store i slot).slot i = slot := by
        rw [System.slot, System.store_slots_self, hblocks, Option.elim,
          System.store_devices_self hblocks, ← hblocks]
      rw [hj, System.store_slots_self] at hused
      rw [hj, hself]
      exact hleaves.good hused
    · rw [System.store_slots_of_ne hj] at hused
      obtain ⟨e, he⟩ := h.bound j hused
      have hgood := h.good j hused
      have hdevice := System.slot_device he
      have hafter : (sys.store i slot).slot j = { sys.slot j with
          cache := { (sys.slot j).cache with device := (sys.store i slot).devices e } } := by
        rw [System.slot, System.slot, System.store_slots_of_ne hj, he]
        rfl
      rw [hafter]
      by_cases hed : e = d
      · subst hed
        rw [System.store_devices_self hblocks]
        refine hgood.device hleaves.works (hleaves.blockSize.trans (by rw [hdevice]))
          fun hwritable => ?_
        rw [hdevice]
        exact (hcalm j hj ⟨he, hwritable⟩).content
      · rw [System.store_devices_of_ne hblocks hed]
        exact hgood.device (h.works e) (by rw [hdevice]) fun _ => by rw [hdevice]
  idle j hused := by
    by_cases hj : j = i
    · rw [hj, System.store_slots_self] at hused ⊢
      exact hleaves.idle hused
    · rw [System.store_slots_of_ne hj] at hused ⊢
      exact h.idle j hused
  single := by
    -- a slot that writes the device is alone with it
    have halone : ∀ e j, j ≠ i → (sys.store i slot).Writes i e → ¬sys.Writes j e := by
      intro e j hj hi hwrites
      rw [System.Writes, System.store_slots_self, hblocks] at hi
      obtain rfl := Option.some.inj hi.1
      exact absurd (hi.2.symm.trans (hcalm j hj hwrites).refused) (by decide)
    intro e j k hwj hwk
    by_cases hj : j = i
    · by_cases hk : k = i
      · rw [hj, hk]
      · rw [System.store_writes_of_ne hk] at hwk
        exact absurd hwk (halone e k hk (hj ▸ hwj))
    · rw [System.store_writes_of_ne hj] at hwj
      by_cases hk : k = i
      · exact absurd hwj (halone e j hj (hk ▸ hwk))
      · rw [System.store_writes_of_ne hk] at hwk
        exact h.single e j k hwj hwk

end Store

/-! ## What a call leaves -/

section Leaves

variable {d : Device}

theorem leaves_reading (hrefused : slot.active.writable = false)
    (hkept : (unchanged d.blockSize d.content).Kept d.blockSize slot.cache)
    (hidle : slot.used = false → slot.active = .none) : slot.Leaves d ∧ slot.Calm d := by
  obtain ⟨hworks, hsize, hcontent⟩ := hkept.device
  refine ⟨⟨hworks, hsize, fun _ => .reading hrefused ?_, hidle⟩, hcontent, hrefused⟩
  rw [hsize, hcontent]
  exact hkept

theorem leaves_writing {g : Volume} {s : State} (volume : slot.active = .exfat g s)
    (granted : g.writable = true) (low : 512 ≤ d.blockSize) (laid : g.Laid d.blockSize)
    (hkept : (flagged d.blockSize).Kept d.blockSize slot.cache) (hused : slot.used = true) :
    slot.Leaves d := by
  obtain ⟨hworks, hsize, -⟩ := hkept.device
  refine ⟨hworks, hsize, fun _ => ?_, fun hoff => absurd (hused.symm.trans hoff) (by decide)⟩
  refine .writing g s volume granted (hsize ▸ low) (hsize ▸ laid) ?_
  rw [hsize]
  exact hkept

theorem leaves_idle (hdevice : (working d.blockSize).device slot.cache.device)
    (hused : slot.used = false) (hactive : slot.active = .none) : slot.Leaves d :=
  ⟨hdevice.1, hdevice.2, fun hon => absurd (hused.symm.trans hon) (by decide), fun _ => hactive⟩

theorem calm_idle (hdevice : (unchanged d.blockSize d.content).device slot.cache.device)
    (hused : slot.used = false) (hactive : slot.active = .none) : slot.Leaves d ∧ slot.Calm d :=
  ⟨leaves_idle ⟨hdevice.1, hdevice.2.1⟩ hused hactive, hdevice.2.2, by rw [hactive]; rfl⟩

end Leaves

/-- **An operation on a mounted volume** leaves the device alone if the slot is read-only. -/
theorem operate_leaves (hgood : slot.Good) (hused : slot.used = true) (op : Operation)
    (fuel : ℕ) (call : Ext4.Call) : (operate slot op fuel call).Leaves slot.cache.device ∧
      (slot.active.writable = false → (operate slot op fuel call).Calm slot.cache.device) := by
  have hU := unchanged_lawful slot.cache.device.blockSize slot.cache.device.content
  have hidle : ∀ {active : Active}, slot.used = false → active = .none :=
    fun hoff => absurd (hused.symm.trans hoff) (by decide)
  rw [operate]
  cases hgood with
  | reading refused kept =>
    have himp : ∀ {p q : Prop}, p ∧ q → p ∧ (slot.active.writable = false → q) :=
      fun h => ⟨h.1, fun _ => h.2⟩
    apply himp
    split
    · exact leaves_reading refused kept hidle
    · rename_i g s hactive
      rw [hactive] at refused
      exact leaves_reading refused (op.keeps_unchanged refused kept s) hidle
    · rename_i v hactive
      have hsilent : (Ext4.call fuel call v).Writes fun _ => False := Ext4.silent_call fuel call v
      exact leaves_reading rfl (kept.runCache hU (fun _ hfalse => hfalse.elim) hsilent) hidle
  | writing g s volume granted low laid kept =>
    rw [volume]
    exact ⟨leaves_writing rfl granted low laid (op.keeps_flagged low laid kept s) hused,
      fun hrefused => absurd (granted.symm.trans hrefused) (by decide)⟩

/-! ## Unmounting -/

@[simp] theorem unmountVolume_active : (unmountVolume slot).active = .none := by
  rw [unmountVolume]
  split
  · rfl
  · rfl

@[simp] theorem unmountVolume_used : (unmountVolume slot).used = slot.used := by
  rw [unmountVolume]
  split
  · rfl
  · rfl

@[simp] theorem unmountVolume_blocks : (unmountVolume slot).blocks = slot.blocks := by
  rw [unmountVolume]
  split
  · rfl
  · rfl

/-- A volume that is not writable has nothing to do. -/
theorem unmountVolume_cache (h : slot.active.writable = false) :
    (unmountVolume slot).cache = slot.cache := by
  rw [unmountVolume]
  split
  · rename_i g s hactive
    rw [hactive] at h
    have hwritable : ¬g.writable = true := by
      rw [show g.writable = false from h]
      decide
    rw [Exfat.unmount, if_neg hwritable]
    rfl
  · rfl

theorem unmountVolume_working {size : ℕ} (h : (working size).Kept size slot.cache) :
    (working size).Kept size (unmountVolume slot).cache := by
  rw [unmountVolume]
  split
  · exact h.runCache (working_lawful size) (fun _ _ _ _ _ => trivial) (Io.writes_anything _)
  · exact h

theorem unmountIn_device : (unmountIn slot).2.cache.device =
    (unmountVolume slot).cache.shutdown.2.device := by
  rw [unmountIn]
  dsimp only
  split
  · rfl
  · rfl

theorem Slot.Good.working (h : slot.Good) :
    (working slot.cache.device.blockSize).Kept slot.cache.device.blockSize slot.cache := by
  cases h with
  | reading refused kept => exact kept.working (unchanged_lawful _ _)
  | writing g s volume granted low laid kept => exact kept.working (flagged_lawful low)

/-- **Unmounting** leaves the device alone if the slot is read-only. -/
theorem unmountIn_leaves (hgood : slot.Good) :
    (unmountIn slot).2.Leaves slot.cache.device ∧
      (slot.active.writable = false → (unmountIn slot).2.Calm slot.cache.device) := by
  have hworking := (unmountVolume_working hgood.working).shutdown (working_lawful _)
  rw [← unmountIn_device] at hworking
  refine ⟨leaves_idle hworking rfl unmountVolume_active, fun hrefused => ?_⟩
  cases hgood with
  | reading refused kept =>
    have hdevice := kept.shutdown (unchanged_lawful _ _)
    rw [← unmountVolume_cache refused, ← unmountIn_device, unmountVolume_cache refused] at hdevice
    exact (calm_idle hdevice rfl unmountVolume_active).2
  | writing g s volume granted low laid kept =>
    rw [volume] at hrefused
    exact absurd (granted.symm.trans hrefused) (by decide)

/-! ## Mounting -/

theorem silent_exfatIdentify (device : Medium Error) :
    (exfatIdentify device).Writes fun _ => False := by
  rw [exfatIdentify]
  split
  · trivial
  · rintro (_ | _)
    · trivial
    · trivial

theorem silent_ext4Identify (device : Medium Error) :
    (ext4Identify device).Writes fun _ => False := by
  rw [ext4Identify]
  split
  · trivial
  split
  · trivial
  · rintro (_ | _)
    · trivial
    · trivial

/-- What `mount_volume` leaves: nothing is written, or VolumeDirty was clear and is set now. -/
inductive VolumeMounted (d : Device) (answer : Except Failure Active × Cache) : Prop
  | reading (refused : ∀ active, answer.1 = .ok active → active.writable = false)
      (kept : (unchanged d.blockSize d.content).Kept d.blockSize answer.2)
  | writing (g : Volume) (s : State) (volume : answer.1 = .ok (.exfat g s))
      (granted : g.writable = true) (clear : ¬Flagged d.content) (low : 512 ≤ d.blockSize)
      (laid : g.Laid d.blockSize) (kept : (flagged d.blockSize).Kept d.blockSize answer.2)

theorem mountVolume_mounted {d : Device} {c : Cache}
    (h : Serves (unchanged d.blockSize d.content) d.blockSize d.blockCount d.content c)
    (r : Request ι) (self : ℕ) : VolumeMounted d (mountVolume r self c) := by
  have hU := unchanged_lawful d.blockSize d.content
  have hidentified := h.runCache hU (silent_exfatIdentify (medium c))
  rw [mountVolume]
  dsimp only
  split
  · have hsize : (medium c).blockSize = d.blockSize := h.kept.bytes
    have hcount : (medium c).blockCount = d.blockCount := h.blocks
    have hmount := mount_over hidentified hsize hcount (s := State.initial) self true r.bounceRoom
      r.upcaseRoom
    rw [Over] at hmount
    split
    · rename_i e hresult
      rw [hresult] at hmount
      exact .reading (fun _ hok => by cases hok) hmount
    · rename_i g hresult
      rw [hresult] at hmount
      cases hmount with
      | readOnly refused kept => exact .reading (fun _ hok => Except.ok.inj hok ▸ refused) kept
      | writable granted clear kept low laid => exact .writing g _ rfl granted clear low laid kept
  · have hidentified := hidentified.runCache hU (silent_ext4Identify (medium c))
    split
    · have hkept := (hidentified.runCache hU (Ext4.silent_mount self (medium c).blockSize
        (medium c).blockCount r.bounceRoom r.blockRoom)).kept
      split
      · exact .reading (fun _ hok => by cases hok) hkept
      · exact .reading (fun _ hok => Except.ok.inj hok ▸ rfl) hkept
    · exact .reading (fun _ hok => by cases hok) hidentified.kept

/-- **Mounting** leaves a device with VolumeDirty alone. -/
theorem mountIn_leaves (hworks : slot.cache.device.Works) (hused : slot.used = false)
    (hactive : slot.active = .none) (r : Request ι) (i : Fin maxDeviceMounts)
    (target : List UInt8) :
    (mountIn r i target slot).2.Leaves slot.cache.device ∧
      (Flagged slot.cache.device.content →
        (mountIn r i target slot).2.Calm slot.cache.device) := by
  have himp : ∀ {p q : Prop}, p ∧ q → p ∧ (Flagged slot.cache.device.content → q) :=
    fun h => ⟨h.1, fun _ => h.2⟩
  have hU := unchanged_lawful slot.cache.device.blockSize slot.cache.device.content
  rw [mountIn]
  dsimp only
  rcases hinit : slot.cache.initializeCache cacheBlocks 0 r.allocated r.storage with ⟨ok, c⟩
  cases ok with
  | false =>
    rw [if_pos rfl, initializeCache_false hinit]
    exact himp (calm_idle ⟨hworks, rfl, rfl⟩ hused hactive)
  | true =>
    simp only [Bool.true_eq_false, if_false]
    have hmounted := mountVolume_mounted (serves_initializeCache hworks hinit) r i
    rcases hanswer : mountVolume r i c with ⟨result, after⟩
    rw [hanswer] at hmounted
    -- a volume that may not be written has left the device alone
    cases hmounted with
    | reading refused kept =>
      apply himp
      cases result with
      | error failure => exact calm_idle (kept.shutdown hU) hused hactive
      | ok active =>
        dsimp only
        split
        · refine calm_idle ?_ (unmountVolume_used.trans hused) unmountVolume_active
          dsimp only
          rw [unmountVolume_cache (refused active rfl)]
          exact kept.shutdown hU
        · exact leaves_reading (refused active rfl) kept fun hoff => nomatch hoff
    | writing g s volume granted clear low laid kept =>
      obtain rfl : result = .ok (.exfat g s) := volume
      refine ⟨?_, fun hflagged => absurd hflagged clear⟩
      dsimp only
      split
      · let mounted : Slot ι := { slot with active := .exfat g s, cache := after }
        have hworking : (working _).Kept _ mounted.cache := kept.working (flagged_lawful low)
        exact leaves_idle ((unmountVolume_working hworking).shutdown (working_lawful _))
          (unmountVolume_used.trans hused) unmountVolume_active
      · exact leaves_writing rfl granted low laid kept rfl

/-! ## Runs -/

theorem operate_blocks {op : Operation} {fuel : ℕ} {call : Ext4.Call} :
    (operate slot op fuel call).blocks = slot.blocks := by
  rw [operate]
  split
  · rfl
  · rfl
  · rfl

theorem mountIn_blocks {r : Request ι} {target : List UInt8} :
    (mountIn r i target slot).2.blocks = slot.blocks := by
  rw [mountIn]
  dsimp only
  split
  · rfl
  split
  · rfl
  split
  · exact unmountVolume_blocks
  · rfl

theorem pickSlot_unused {target : List UInt8} :
    ∀ {is : List (Fin maxDeviceMounts)} {found : Option (Fin maxDeviceMounts)},
      (∀ k, found = some k → (sys.slots k).used = false) →
      pickSlot sys target is found = .ok (some i) → (sys.slots i).used = false
  | [], found, hfound, hpick => hfound i (Except.ok.inj hpick)
  | k :: is, found, hfound, hpick => by
    rw [pickSlot] at hpick
    split at hpick
    · rename_i hunused
      refine pickSlot_unused (fun j hj => ?_) hpick
      split at hj
      · exact Option.some.inj hj ▸ hunused
      · exact hfound j hj
    · split at hpick
      · exact nomatch hpick
      · exact pickSlot_unused hfound hpick

/-- While another slot writes the device of a slot, the slot itself does not. -/
theorem System.Safe.refused (h : sys.Safe) (hblocks : (sys.slots i).blocks = some d) (hj : j ≠ i)
    (hwrites : sys.Writes j d) : (sys.slots i).active.writable = false := by
  by_contra hwritable
  exact hj (h.single d j i hwrites ⟨hblocks, by simpa using hwritable⟩)

variable [DecidableEq ι]

theorem System.Safe.mountDevice (h : sys.Safe) (r : Request ι) :
    (mountDevice sys r).2.Safe := by
  rw [Fs.mountDevice]
  split
  · exact h
  · exact h
  · rename_i d hnode
    split
    · exact h
    split
    · exact h
    · exact h
    · rename_i target htarget _ i hpick
      have hunused : (sys.slots i).used = false := by
        refine pickSlot_unused ?_ hpick
        exact fun _ hk => nomatch hk
      let bound : Slot ι := { sys.slots i with
        blocks := some d
        cache := { (sys.slots i).cache with device := sys.devices d } }
      have hworks : bound.cache.device.Works := h.works d
      have hactive : bound.active = .none := h.idle i hunused
      obtain ⟨hleaves, hcalm⟩ := mountIn_leaves hworks hunused hactive r i target
      exact h.store mountIn_blocks hleaves fun j _ hwrites => hcalm (h.flagged hwrites)

theorem System.Safe.unmountDevice (h : sys.Safe) (path : List UInt8) (base : Option (List UInt8))
    (released : Bool) : (unmountDevice sys path base released).2.Safe := by
  rw [Fs.unmountDevice]
  split
  · exact h
  split
  · exact h
  split
  · exact h
  · rename_i i hfind hreleased
    have hfound := List.find?_some hfind
    rw [Bool.and_eq_true] at hfound
    obtain ⟨d, hblocks⟩ := h.bound i hfound.1
    obtain ⟨hleaves, hcalm⟩ := unmountIn_leaves (h.good i hfound.1)
    rw [System.slot_device hblocks] at hleaves hcalm
    exact h.store (unmountVolume_blocks.trans hblocks) hleaves fun j hj hwrites =>
      hcalm (h.refused hblocks hj hwrites)

theorem System.Safe.step (h : sys.Safe) (call : Call ι) : (step sys call).Safe := by
  cases call with
  | mount request => exact h.mountDevice request
  | unmount path base released => exact h.unmountDevice path base released
  | operate i op fuel call =>
    rw [Fs.step]
    split
    · rename_i hused
      obtain ⟨d, hblocks⟩ := h.bound i hused
      obtain ⟨hleaves, hcalm⟩ := operate_leaves (h.good i hused) hused op fuel call
      rw [System.slot_device hblocks] at hleaves hcalm
      exact h.store (operate_blocks.trans hblocks) hleaves fun j hj hwrites =>
        hcalm (h.refused hblocks hj hwrites)
    · exact h

theorem System.Safe.run (calls : List (Call ι)) : ∀ {sys : System ι}, sys.Safe →
    (run sys calls).Safe := by
  induction calls with
  | nil => exact fun h => h
  | cons call calls ih => exact fun h => ih (h.step call)

omit [DecidableEq ι] in
theorem start_safe {devices : ι → Device} (hworks : ∀ d, (devices d).Works) :
    (start devices).Safe where
  works := hworks
  bound _ hused := nomatch hused
  good _ hused := nomatch hused
  idle _ _ := rfl
  single _ _ _ hwrites _ := nomatch hwrites.2

/-! ## A device mounted twice -/

theorem mountDevice_used (r : Request ι) (h : (sys.slots j).used = true) :
    (mountDevice sys r).2.slots j = sys.slots j := by
  rw [Fs.mountDevice]
  split
  · rfl
  · rfl
  split
  · rfl
  split
  · rfl
  · rfl
  · rename_i i hpick
    have hunused : (sys.slots i).used = false := by
      refine pickSlot_unused ?_ hpick
      exact fun _ hk => nomatch hk
    refine System.store_slots_of_ne fun hj => ?_
    rw [hj, hunused] at h
    exact absurd h (by decide)

/-- A boot sector: 28 sectors of 512 bytes, the FAT in sector 24 and three clusters from sector 25
on, the root directory in the last. -/
def smallBoot : Bytes := .ofTable
  [(3, 0x45), (4, 0x58), (5, 0x46), (6, 0x41), (7, 0x54), (8, 0x20), (9, 0x20), (10, 0x20),
    (72, 28), (80, 24), (84, 1), (88, 25), (92, 3), (96, 4), (105, 1), (108, 9), (110, 1),
    (510, 0x55), (511, 0xAA)]

/-- An empty volume: its boot sector and checksum, three chains of one cluster, and the entries of
the bitmap and the up-case table. -/
def smallVolume : Bytes := fun x =>
  if x < 512 then smallBoot x
  else if 11 * 512 ≤ x ∧ x < 12 * 512 then [0x99, 0xCB, 0x97, 0x12].getD (x % 4) 0
  else if 24 * 512 + 8 ≤ x ∧ x < 24 * 512 + 20 then 0xFF
  else if 27 * 512 ≤ x then
    Bytes.ofTable [(0, 0x81), (20, 2), (24, 1), (32, 0x82), (52, 3), (56, 2)] (x - 27 * 512)
  else 0

def smallDisk : Device := ⟨512, 28, smallVolume, fun _ => none, 0⟩

/-- The disk is mounted at a path, and everybody agrees. -/
def mountSmall (path : List UInt8) : Request Unit where
  node := some (some ())
  path
  base := none
  allocated := true
  storage _ _ := 0
  bounceRoom := true
  upcaseRoom := true
  blockRoom := true
  accepted := true

set_option maxRecDepth 1000000 in
theorem mountSmall_writes :
    let slot := (mountDevice (start fun _ => smallDisk) (mountSmall [Vfs.slash, 0x61])).2.slots 0
    (slot.used && slot.blocks == some () && slot.active.writable) = true := by
  decide +kernel

/-- **One writer per device**: after any sequence of calls, over devices that never fail, at most
one slot has an exFAT volume on a device mounted writable. -/
theorem run_singleWriter (devices : ι → Device) (hworks : ∀ d, (devices d).Works)
    (calls : List (Call ι)) (d : ι) (i j : Fin maxDeviceMounts)
    (hi : (run (start devices) calls).Writes i d) (hj : (run (start devices) calls).Writes j d) :
    i = j :=
  ((start_safe hworks).run calls).single d i j hi hj

/-- A volume that is mounted at two places is written through the first. -/
theorem run_singleWriter_twice :
    (run (start fun _ => smallDisk) [.mount (mountSmall [Vfs.slash, 0x61]),
        .mount (mountSmall [Vfs.slash, 0x62])]).Writes 0 () ∧
      ¬(run (start fun _ => smallDisk) [.mount (mountSmall [Vfs.slash, 0x61]),
        .mount (mountSmall [Vfs.slash, 0x62])]).Writes 1 () := by
  have hfirst := mountSmall_writes
  dsimp only at hfirst
  rw [Bool.and_eq_true, Bool.and_eq_true, beq_iff_eq] at hfirst
  have hwrites : (run (start fun _ => smallDisk) [.mount (mountSmall [Vfs.slash, 0x61]),
      .mount (mountSmall [Vfs.slash, 0x62])]).Writes 0 () := by
    rw [System.Writes, run, List.foldl_cons, List.foldl_cons, List.foldl_nil, step, step,
      mountDevice_used _ hfirst.1.1]
    exact ⟨hfirst.1.2, hfirst.2⟩
  refine ⟨hwrites, fun hsecond => ?_⟩
  exact absurd (run_singleWriter (fun _ => smallDisk) (fun _ _ _ => rfl) _ () 0 1 hwrites hsecond)
    (by decide)

end ShirleysOS.Fs
