import ShirleysOS.Fs.SingleWriter

/-!
# Slots that can be used again

A mount that fails, or that the VFS turns down, gives its slot back: the volume is unmounted and the
cache is shut down. What `shutdown` reports is not looked at. When the device does not take the
blocks that are still dirty, the cache keeps them and stays ready, in a slot that counts as free.
`initialize` then turns down every later mount in this slot, which is the first one that
`mount_device` picks. `unmount_device` does look, and makes a new cache.
-/

namespace ShirleysOS.Fs

open Lib Storage

variable {ι : Type} {sys : System ι} {i j : Fin maxDeviceMounts} {slot : Slot ι} {d : ι}
  {r : Request ι} {target : List UInt8} {c : Cache}

/-! ## Shutting down -/

theorem syncLoop_ready : ∀ (is : List ℕ) (written : ℕ) (failure : Error) (c : Cache),
    (Cache.syncLoop is written failure c).2.ready = c.ready
  | [], _, _, _ => rfl
  | i :: is, _, _, c => by
    rw [Cache.syncLoop]
    have hwrite : (c.writeBack i).2.ready = c.ready := by
      rw [Cache.writeBack]
      dsimp only
      split
      · rfl
      · rfl
    split
    · dsimp only
      split
      · exact (syncLoop_ready is _ _ _).trans hwrite
      · exact (syncLoop_ready is _ _ _).trans hwrite
    · exact syncLoop_ready is _ _ c

/-- `shutdown` gives the buffers back exactly when it reports no error. -/
theorem shutdown_ready : c.shutdown.2.ready = false ↔ c.shutdown.1.ok = true := by
  rw [Cache.shutdown]
  split
  · next hready => exact iff_of_true hready rfl
  · next hready =>
    dsimp only
    split
    · next hok => exact iff_of_true rfl hok
    · next hok =>
      refine iff_of_false (fun hoff => hready ?_) hok
      rw [← hoff]
      exact (syncLoop_ready _ _ _ c).symm

/-- A cache that is ready is not initialized again, and one that cannot be is left as it is. -/
theorem initializeCache_cases (capacity bytes : ℕ) (allocated : Bool) (storage : ℕ → Bytes) :
    c.initializeCache capacity bytes allocated storage = (false, c) ∨
      c.ready = false ∧ (c.initializeCache capacity bytes allocated storage).1 = true := by
  unfold Cache.initializeCache
  by_cases hready : c.ready = true ∨ capacity = 0
  · exact .inl (if_pos hready)
  have hoff : c.ready = false := by simpa using fun h => hready (.inl h)
  rw [if_neg hready]
  by_cases hsize : c.device.blockSize = 0
  · exact .inl (if_pos hsize)
  rw [if_neg hsize]
  generalize (if bytes = 0 then c.device.blockSize else bytes) = size
  dsimp only
  split
  · exact .inl rfl
  split
  · exact .inl rfl
  split
  · exact .inl rfl
  · exact .inr ⟨hoff, rfl⟩

/-! ## What a call can do -/

/-- The cache that is left when a mount fails in a slot that is bound to its device, before it is
shut down. -/
def leftBy (r : Request ι) (i : Fin maxDeviceMounts) (slot : Slot ι) : Option Cache :=
  let initialized := slot.cache.initializeCache cacheBlocks 0 r.allocated r.storage
  if initialized.1 = false then none
  else
    match mountVolume r i initialized.2 with
    | (.error _, c) => some c
    | (.ok active, c) =>
      if r.accepted = false then some (unmountVolume { slot with active, cache := c }).cache
      else none

/-- A slot when it is bound to a device. -/
def System.bound (sys : System ι) (i : Fin maxDeviceMounts) (d : ι) : Slot ι :=
  { sys.slots i with
    blocks := some d
    cache := { (sys.slots i).cache with device := sys.devices d } }

/-- `mount_device` comes to binding a slot. -/
structure Binds (sys : System ι) (r : Request ι) (d : ι) (target : List UInt8)
    (i : Fin maxDeviceMounts) : Prop where
  node : r.node = some (some d)
  path : Vfs.normalize r.path r.base Vfs.maxPathLength = some target
  slot : pickSlot sys target (List.finRange maxDeviceMounts) none = .ok (some i)

/-- A mount that fails leaves no block that has to be written back, or a device that takes the
writes of all of them, which come next. -/
def Cleaned (sys : System ι) (call : Call ι) : Prop :=
  ∀ r d target i c, call = .mount r → Binds sys r d target i →
    leftBy r i (sys.bound i d) = some c →
      ∀ k < c.dirtyCount, c.device.faults (c.device.accesses + k) = none

theorem mountVolume_error {self : ℕ} {failure : Failure} {c' : Cache}
    (h : mountVolume r self c = (.error failure, c')) : failure ≠ .tooManyDevices := by
  rintro rfl
  unfold mountVolume at h
  dsimp only at h
  split at h
  · split at h
    · cases h
    · cases h
  split at h
  · split at h
    · cases h
    · cases h
  · cases h

theorem unmountVolume_eq :
    unmountVolume slot = { slot with active := .none, cache := (unmountVolume slot).cache } := by
  rw [unmountVolume]
  split
  · rfl
  · rfl

theorem held_initializeCache {c : Cache} {capacity bytes : ℕ} {allocated : Bool}
    {storage : ℕ → Bytes} (h : (c.initializeCache capacity bytes allocated storage).1 = true) :
    Held (c.initializeCache capacity bytes allocated storage).2 [] := by
  unfold Cache.initializeCache at h ⊢
  dsimp only at h ⊢
  generalize (if bytes = 0 then c.device.blockSize else bytes) = size at h ⊢
  split_ifs at h ⊢
  exact held_of_empty nofun (fun _ _ => rfl) fun _ _ => rfl

theorem mountVolume_held (self : ℕ) (h : Held c []) : Held (mountVolume r self c).2 [] := by
  unfold mountVolume
  dsimp only
  split
  · split
    · exact (h.runCache _).runCache _
    · exact (h.runCache _).runCache _
  split
  · split
    · exact ((h.runCache _).runCache _).runCache _
    · exact ((h.runCache _).runCache _).runCache _
  · exact (h.runCache _).runCache _

theorem unmountVolume_held (slot : Slot ι) (h : Held slot.cache []) :
    Held (unmountVolume slot).cache [] := by
  rw [unmountVolume]
  split
  · exact h.runCache _
  · exact h

/-- How `mount_device` ends in a slot: the cache is not initialized, the mount fails, or the volume
is there. -/
theorem mountIn_cases (r : Request ι) (i : Fin maxDeviceMounts) (target : List UInt8)
    (slot : Slot ι) :
    mountIn r i target slot = (some .outOfMemory, slot) ∧ leftBy r i slot = none ∨
      (slot.cache.ready = false ∧ ∃ (failure : Failure) (c : Cache) (active : Active),
        failure ≠ .tooManyDevices ∧ (active = slot.active ∨ active = .none) ∧
        leftBy r i slot = some c ∧ Held c [] ∧
        mountIn r i target slot = (some failure, { slot with active, cache := c.shutdown.2 })) ∨
      slot.cache.ready = false ∧ leftBy r i slot = none ∧ ∃ cache active,
        mountIn r i target slot =
          (none, { slot with active, cache, path := target, used := true }) := by
  unfold mountIn leftBy
  rcases initializeCache_cases (c := slot.cache) cacheBlocks 0 r.allocated r.storage with
    hfail | ⟨hoff, hok⟩
  · rw [hfail]
    exact .inl ⟨rfl, rfl⟩
  dsimp only
  rw [hok, if_neg (by decide), if_neg (by decide)]
  refine .inr ?_
  -- no buffer is out when the cache is shut down again
  have hheld := mountVolume_held (r := r) i (held_initializeCache hok)
  cases hvolume : mountVolume r i
      (slot.cache.initializeCache cacheBlocks 0 r.allocated r.storage).2 with
  | mk outcome c =>
    rw [hvolume] at hheld
    cases outcome with
    | error failure =>
      exact .inl ⟨hoff, failure, c, slot.active, mountVolume_error hvolume, .inl rfl, rfl, hheld,
        rfl⟩
    | ok active =>
      dsimp only
      by_cases hrefused : r.accepted = false
      · rw [if_pos hrefused, if_pos hrefused]
        refine .inl ⟨hoff, .unusableMountPoint, _, .none, (by decide), .inr rfl, rfl,
          unmountVolume_held { slot with active, cache := c } hheld, ?_⟩
        rw [unmountVolume_eq]
      · rw [if_neg hrefused, if_neg hrefused]
        exact .inr ⟨hoff, rfl, c, active, rfl⟩

theorem cleaned_iff (h : Binds sys r d target i) :
    Cleaned sys (.mount r) ↔ ∀ c, leftBy r i (sys.bound i d) = some c →
      ∀ k < c.dirtyCount, c.device.faults (c.device.accesses + k) = none := by
  refine ⟨fun hclean c => hclean r d target i c rfl h, fun hall => ?_⟩
  rintro _ d' target' i' c ⟨rfl⟩ h' hleft
  obtain rfl : d = d' := Option.some.inj (Option.some.inj (h.node.symm.trans h'.node))
  obtain rfl : target = target' := Option.some.inj (h.path.symm.trans h'.path)
  obtain rfl : i = i' := Option.some.inj (Except.ok.inj (h.slot.symm.trans h'.slot))
  exact hall c hleft

variable {call : Call ι} {sys' : System ι}

theorem cleaned_of_ne (h : ∀ r, call ≠ .mount r) : Cleaned sys call :=
  fun r _ _ _ _ hmount => absurd hmount (h r)

theorem cleaned_of_not_binds (h : ∀ d target i, ¬Binds sys r d target i) :
    Cleaned sys (.mount r) := by
  rintro _ d target i _ ⟨rfl⟩ hbinds
  exact absurd hbinds (h d target i)

theorem pickSlot_none :
    ∀ {is : List (Fin maxDeviceMounts)} {found : Option (Fin maxDeviceMounts)},
      pickSlot sys target is found = .ok none →
      found = none ∧ ∀ k ∈ is, (sys.slots k).used = true
  | [], found, h => ⟨Except.ok.inj h, fun _ hk => nomatch hk⟩
  | k :: is, found, h => by
    rw [pickSlot] at h
    split at h
    · have hfound := (pickSlot_none h).1
      split at hfound
      · cases hfound
      · next hsome => exact absurd hfound hsome
    · next hused =>
      split at h
      · cases h
      · obtain ⟨hfound, hall⟩ := pickSlot_none h
        exact ⟨hfound, List.forall_mem_cons.mpr ⟨by simpa using hused, hall⟩⟩

theorem pickSlot_error {failure : Failure} :
    ∀ {is : List (Fin maxDeviceMounts)} {found : Option (Fin maxDeviceMounts)},
      pickSlot sys target is found = .error failure → failure = .alreadyMountedThere
  | [], found, h => nomatch h
  | k :: is, found, h => by
    rw [pickSlot] at h
    split at h
    · exact pickSlot_error h
    split at h
    · exact (Except.error.inj h).symm
    · exact pickSlot_error h

theorem unmountIn_off : (unmountIn slot).2.cache.ready = false := by
  rw [unmountIn]
  dsimp only
  split
  · next hok => exact shutdown_ready.mpr hok
  · rfl

theorem operate_used {op : Exfat.Operation} {fuel : ℕ} {call : Ext4.Call} :
    (operate slot op fuel call).used = slot.used := by
  rw [operate]
  split
  · rfl
  · rfl
  · rfl

variable [DecidableEq ι]

/-- **What a call can do**: nothing, or something in one slot. -/
inductive Effect (sys : System ι) (call : Call ι) : System ι → Prop
  | nothing (cleaned : Cleaned sys call) : Effect sys call sys
  | rebound (i : Fin maxDeviceMounts) (d : ι) (cleaned : Cleaned sys call)
      (unused : (sys.slots i).used = false) : Effect sys call (sys.store i (sys.bound i d))
  | failed (i : Fin maxDeviceMounts) (d : ι) (c : Cache) (active : Active)
      (cleaned : Cleaned sys call ↔ c.shutdown.1.ok = true)
      (unused : (sys.slots i).used = false) (fresh : (sys.slots i).cache.ready = false)
      (inactive : active = (sys.slots i).active ∨ active = .none) :
      Effect sys call (sys.store i { sys.bound i d with active, cache := c.shutdown.2 })
  | mounted (i : Fin maxDeviceMounts) (slot : Slot ι) (cleaned : Cleaned sys call)
      (used : slot.used = true) (fresh : (sys.slots i).cache.ready = false) :
      Effect sys call (sys.store i slot)
  | unmounted (i : Fin maxDeviceMounts) (slot : Slot ι) (cleaned : Cleaned sys call)
      (used : (sys.slots i).used = true) (blocks : slot.blocks = (sys.slots i).blocks)
      (unused : slot.used = false) (off : slot.cache.ready = false)
      (inactive : slot.active = .none) : Effect sys call (sys.store i slot)
  | operated (i : Fin maxDeviceMounts) (slot : Slot ι) (cleaned : Cleaned sys call)
      (used : (sys.slots i).used = true) (blocks : slot.blocks = (sys.slots i).blocks)
      (kept : slot.used = true) : Effect sys call (sys.store i slot)

/-- `mount_device` changes nothing, or it binds a slot. It says that there are too many devices only
when every slot is used. -/
theorem mountDevice_cases (sys : System ι) (r : Request ι) :
    ((mountDevice sys r).2 = sys ∧ (∀ d target i, ¬Binds sys r d target i) ∧
        ((mountDevice sys r).1 = some .tooManyDevices → ∀ i, (sys.slots i).used = true)) ∨
      ∃ d target i, Binds sys r d target i ∧
        mountDevice sys r = ((mountIn r i target (sys.bound i d)).1,
          sys.store i (mountIn r i target (sys.bound i d)).2) := by
  rw [mountDevice]
  split
  · next hnode =>
    refine .inl ⟨rfl, fun _ _ _ h => ?_, fun hmany => by cases hmany⟩
    rw [h.node] at hnode
    cases hnode
  · next hnode =>
    refine .inl ⟨rfl, fun _ _ _ h => ?_, fun hmany => by cases hmany⟩
    rw [h.node] at hnode
    cases hnode
  · next d hnode =>
    split
    · next hpath =>
      refine .inl ⟨rfl, fun _ _ _ h => ?_, fun hmany => by cases hmany⟩
      rw [h.path] at hpath
      cases hpath
    · next target hpath =>
      -- there is at most one slot to bind
      have hslot {d' : ι} {target' : List UInt8} {i : Fin maxDeviceMounts}
          (h : Binds sys r d' target' i) :
          pickSlot sys target (List.finRange maxDeviceMounts) none = .ok (some i) := by
        obtain rfl : target = target' := Option.some.inj (hpath.symm.trans h.path)
        exact h.slot
      split
      · next failure hpick =>
        refine .inl ⟨rfl, fun _ _ _ h => ?_, fun hmany => ?_⟩
        · rw [hslot h] at hpick
          cases hpick
        · obtain rfl := pickSlot_error hpick
          cases hmany
      · next hpick =>
        refine .inl ⟨rfl, fun _ _ _ h => ?_, fun _ i => ?_⟩
        · rw [hslot h] at hpick
          cases hpick
        · exact (pickSlot_none hpick).2 i (List.mem_finRange i)
      · next i hpick => exact .inr ⟨d, target, i, ⟨hnode, hpath, hpick⟩, rfl⟩

theorem mount_effect (sys : System ι) (r : Request ι) :
    Effect sys (.mount r) (mountDevice sys r).2 := by
  rcases mountDevice_cases sys r with ⟨hsame, hnot, -⟩ | ⟨d, target, i, hbinds, hmount⟩
  · rw [hsame]
    exact .nothing (cleaned_of_not_binds hnot)
  have hclean := cleaned_iff hbinds
  have hunused : (sys.slots i).used = false := by
    refine pickSlot_unused ?_ hbinds.slot
    exact fun _ h => nomatch h
  rw [hmount]
  rcases mountIn_cases r i target (sys.bound i d) with
    ⟨hin, hleft⟩ | ⟨hoff, failure, c, active, -, hactive, hleft, hheld, hin⟩ |
      ⟨hoff, hleft, cache, active, hin⟩
  · rw [hin]
    rw [hleft] at hclean
    exact .rebound i d (hclean.mpr nofun) hunused
  · rw [hin]
    rw [hleft] at hclean
    refine .failed i d c active (hclean.trans ?_) hunused hoff hactive
    rw [hheld.shutdown_ok_iff]
    exact ⟨fun h => h c rfl, fun h _ heq => Option.some.inj heq ▸ h⟩
  · rw [hin]
    rw [hleft] at hclean
    exact .mounted i { sys.bound i d with active, cache, path := target, used := true }
      (hclean.mpr nofun) rfl hoff

theorem step_effect (sys : System ι) (call : Call ι) : Effect sys call (step sys call) := by
  cases call with
  | mount r => exact mount_effect sys r
  | unmount path base released =>
    have hclean : Cleaned sys (.unmount path base released) := cleaned_of_ne fun _ h => by cases h
    rw [step, unmountDevice]
    split
    · exact .nothing hclean
    split
    · exact .nothing hclean
    split
    · exact .nothing hclean
    · next i hfind hreleased =>
      have hfound := List.find?_some hfind
      rw [Bool.and_eq_true] at hfound
      exact .unmounted i _ hclean hfound.1 unmountVolume_blocks rfl unmountIn_off
        unmountVolume_active
  | operate i op fuel call =>
    have hclean : Cleaned sys (.operate i op fuel call) := cleaned_of_ne fun _ h => by cases h
    rw [step]
    split
    · next hused => exact .operated i _ hclean hused operate_blocks (operate_used.trans hused)
    · exact .nothing hclean

/-! ## Free slots -/

/-- A slot that is not used has no cache and no volume. -/
def System.Idle (sys : System ι) : Prop :=
  ∀ i, (sys.slots i).used = false →
    (sys.slots i).cache.ready = false ∧ (sys.slots i).active = .none

theorem System.Idle.store_iff (h : sys.Idle) :
    (sys.store i slot).Idle ↔
      (slot.used = false → slot.cache.ready = false ∧ slot.active = .none) := by
  constructor
  · intro hidle
    have hi := hidle i
    rwa [System.store_slots_self] at hi
  · intro hslot j
    by_cases hj : j = i
    · rw [hj, System.store_slots_self]
      exact hslot
    · rw [System.store_slots_of_ne hj]
      exact h j

/-- The free slots stay free exactly when the cache of a mount that fails can be shut down. -/
theorem Effect.idle_iff (h : Effect sys call sys') (hidle : sys.Idle) :
    sys'.Idle ↔ Cleaned sys call := by
  cases h with
  | nothing cleaned => exact iff_of_true hidle cleaned
  | rebound i d cleaned unused =>
    exact iff_of_true (hidle.store_iff.mpr fun _ => hidle i unused) cleaned
  | failed i d c active cleaned unused fresh inactive =>
    have hactive : active = .none := inactive.elim (fun h => h.trans (hidle i unused).2) id
    rw [hidle.store_iff, cleaned, ← shutdown_ready]
    exact ⟨fun hoff => (hoff unused).1, fun hoff _ => ⟨hoff, hactive⟩⟩
  | mounted i slot cleaned used fresh =>
    exact iff_of_true (hidle.store_iff.mpr fun h => nomatch used.symm.trans h) cleaned
  | unmounted i slot cleaned used blocks unused off inactive =>
    exact iff_of_true (hidle.store_iff.mpr fun _ => ⟨off, inactive⟩) cleaned
  | operated i slot cleaned used blocks kept =>
    exact iff_of_true (hidle.store_iff.mpr fun h => nomatch kept.symm.trans h) cleaned

/-! ## Where blocks go -/

/-- The devices that the caches were initialized for. -/
abbrev Origins (ι : Type) : Type := Fin maxDeviceMounts → Option ι

/-- The origins after a call: a cache keeps its own as long as it is ready. -/
def Origins.after (origins : Origins ι) (sys sys' : System ι) : Origins ι := fun i =>
  if (sys'.slots i).cache.ready = false then none
  else if (sys.slots i).cache.ready then origins i
  else (sys'.slots i).blocks

/-- The cache of a slot that is used was initialized for the device that the slot is bound to. -/
def Origins.Right (origins : Origins ι) (sys : System ι) : Prop :=
  ∀ i, (sys.slots i).used = true → (sys.slots i).cache.ready = true →
    origins i = (sys.slots i).blocks

/-- From one system to the next only one slot has changed, and only the device that it is bound to.
If its cache was ready before, it was initialized for this device. -/
def Homeward (origins : Origins ι) (sys sys' : System ι) : Prop :=
  ∃ i, (∀ j, j ≠ i → sys'.slots j = sys.slots j) ∧
    ∀ e, sys'.devices e ≠ sys.devices e →
      (sys'.slots i).blocks = some e ∧ ((sys.slots i).cache.ready = true → origins i = some e)

theorem System.store_touches {e : ι} (h : (sys.store i slot).devices e ≠ sys.devices e) :
    slot.blocks = some e := by
  cases hblocks : slot.blocks with
  | none =>
    refine absurd ?_ h
    simp only [System.store, hblocks]
  | some d =>
    by_contra hne
    exact h (System.store_devices_of_ne hblocks fun heq => hne (congrArg some heq.symm))

variable {origins : Origins ι}

theorem homeward_store
    (h : ∀ e, slot.blocks = some e → (sys.slots i).cache.ready = true → origins i = some e) :
    Homeward origins sys (sys.store i slot) := by
  refine ⟨i, fun j hj => System.store_slots_of_ne hj, fun e he => ?_⟩
  have hblocks := System.store_touches he
  rw [System.store_slots_self]
  exact ⟨hblocks, h e hblocks⟩

theorem Effect.homeward (h : Effect sys call sys') (hright : origins.Right sys) :
    Homeward origins sys sys' := by
  cases h with
  | nothing _ => exact ⟨0, fun _ _ => rfl, fun e he => absurd rfl he⟩
  | rebound i d _ _ =>
    -- the device is bound and not accessed
    refine ⟨i, fun j hj => System.store_slots_of_ne hj, fun e he => absurd ?_ he⟩
    obtain rfl : d = e := Option.some.inj (System.store_touches he)
    exact System.store_devices_self rfl
  | failed i d c active _ _ fresh _ =>
    exact homeward_store fun _ _ hready => nomatch fresh.symm.trans hready
  | mounted i slot _ _ fresh =>
    exact homeward_store fun _ _ hready => nomatch fresh.symm.trans hready
  | unmounted i slot _ used blocks _ _ _ =>
    exact homeward_store fun e he hready => (hright i used hready).trans (blocks.symm.trans he)
  | operated i slot _ used blocks _ =>
    exact homeward_store fun e he hready => (hright i used hready).trans (blocks.symm.trans he)

/-- The origins stay right when the slot that changes was used and stays bound, or had no cache. -/
theorem Origins.Right.store (h : origins.Right sys)
    (hslot : slot.used = true → (sys.slots i).cache.ready = true →
      (sys.slots i).used = true ∧ slot.blocks = (sys.slots i).blocks) :
    (origins.after sys (sys.store i slot)).Right (sys.store i slot) := by
  intro j hused hready
  rw [Origins.after, if_neg (by rw [hready]; decide)]
  split
  · next hbefore =>
    by_cases hj : j = i
    · subst hj
      rw [System.store_slots_self] at hused ⊢
      obtain ⟨hused', hblocks⟩ := hslot hused hbefore
      exact (h j hused' hbefore).trans hblocks.symm
    · rw [System.store_slots_of_ne hj] at hused ⊢
      exact h j hused hbefore
  · rfl

theorem Effect.right (h : Effect sys call sys') (hright : origins.Right sys) :
    (origins.after sys sys').Right sys' := by
  cases h with
  | nothing _ =>
    intro i hused hready
    rw [Origins.after, if_neg (by rw [hready]; decide), if_pos hready]
    exact hright i hused hready
  | rebound i d _ unused => exact hright.store fun hused => nomatch unused.symm.trans hused
  | failed i d c active _ unused _ _ =>
    exact hright.store fun hused => nomatch unused.symm.trans hused
  | mounted i slot _ _ fresh => exact hright.store fun _ hready => nomatch fresh.symm.trans hready
  | unmounted i slot _ _ _ unused _ _ =>
    exact hright.store fun hused => nomatch unused.symm.trans hused
  | operated i slot _ used blocks _ => exact hright.store fun _ _ => ⟨used, blocks⟩

/-! ## Runs -/

theorem mountDevice_many (h : (mountDevice sys r).1 = some .tooManyDevices)
    (i : Fin maxDeviceMounts) : (sys.slots i).used = true := by
  rcases mountDevice_cases sys r with ⟨-, -, hmany⟩ | ⟨d, target, k, -, hmount⟩
  · exact hmany h i
  rw [hmount] at h
  rcases mountIn_cases r k target (sys.bound k d) with
    ⟨hin, -⟩ | ⟨-, failure, c, active, hfailure, -, -, -, hin⟩ | ⟨-, -, cache, active, hin⟩
  · rw [hin] at h
    cases h
  · rw [hin] at h
    exact absurd (Option.some.inj h) hfailure
  · rw [hin] at h
    cases h

/-- **A proper call**: afterwards, a slot that is not used has no cache and no volume, and a mount
is refused for lack of slots only if all are used; and what the call does to a device, it does
through a cache that was initialized for this device. -/
structure Proper (sys : System ι) (origins : Origins ι) (call : Call ι) : Prop where
  idle : (step sys call).Idle
  refused : ∀ r, (mountDevice (step sys call) r).1 = some .tooManyDevices →
    ∀ i, ((step sys call).slots i).used = true
  home : Homeward origins sys (step sys call)

/-- Every call of a run satisfies `P`, with the system and the origins at that time. -/
def Throughout (P : System ι → Origins ι → Call ι → Prop) (sys : System ι) (origins : Origins ι) :
    List (Call ι) → Prop
  | [] => True
  | call :: calls =>
    P sys origins call ∧
      Throughout P (step sys call) (origins.after sys (step sys call)) calls

theorem proper_iff (hidle : sys.Idle) (hright : origins.Right sys) (call : Call ι) :
    Proper sys origins call ↔ Cleaned sys call := by
  have heffect := step_effect sys call
  rw [← heffect.idle_iff hidle]
  exact ⟨Proper.idle, fun h => ⟨h, fun _ hmany => mountDevice_many hmany, heffect.homeward hright⟩⟩

theorem throughout_proper_iff (calls : List (Call ι)) : ∀ {sys : System ι} {origins : Origins ι},
    sys.Idle → origins.Right sys →
    (Throughout Proper sys origins calls ↔
      Throughout (fun sys _ call => Cleaned sys call) sys origins calls) := by
  induction calls with
  | nil => exact fun _ _ => Iff.rfl
  | cons call calls ih =>
    intro sys origins hidle hright
    have heffect := step_effect sys call
    rw [Throughout, Throughout, proper_iff hidle hright]
    refine and_congr_right fun hclean => ?_
    exact ih ((heffect.idle_iff hidle).mpr hclean) (heffect.right hright)

/-- **Slots can be used again**: from the start, every call is proper exactly as long as a mount
that fails leaves nothing to write back, or the device takes all of it. -/
theorem slots_reusable_iff (devices : ι → Device) (calls : List (Call ι)) :
    Throughout Proper (start devices) (fun _ => none) calls ↔
      Throughout (fun sys _ call => Cleaned sys call) (start devices) (fun _ => none) calls :=
  throughout_proper_iff calls (fun _ _ => ⟨rfl, rfl⟩) fun _ hused => nomatch hused

/-! ## A disk that cannot be written -/

/-- When no slot is used and the first cache is ready, there is no mount any more. -/
theorem mountDevice_refused (hunused : ∀ i, (sys.slots i).used = false)
    (hready : (sys.slots 0).cache.ready = true) (hnode : r.node = some (some d))
    (hpath : Vfs.normalize r.path r.base Vfs.maxPathLength = some target) :
    (mountDevice sys r).1 = some .outOfMemory := by
  have hpick : pickSlot sys target (List.finRange maxDeviceMounts) none = .ok (some 0) := by
    simp [List.finRange, pickSlot, hunused]
  have hbinds : Binds sys r d target 0 := ⟨hnode, hpath, hpick⟩
  rcases mountDevice_cases sys r with ⟨-, hnot, -⟩ | ⟨d', target', i, h, hmount⟩
  · exact absurd hbinds (hnot d target 0)
  obtain rfl : target = target' := Option.some.inj (hpath.symm.trans h.path)
  obtain rfl : 0 = i := Option.some.inj (Except.ok.inj (hpick.symm.trans h.slot))
  rw [hmount]
  rcases mountIn_cases r 0 target (sys.bound 0 d') with ⟨hin, -⟩ | ⟨hoff, -⟩ | ⟨hoff, -⟩
  · rw [hin]
  · exact absurd (hoff.symm.trans hready) Bool.false_ne_true
  · exact absurd (hoff.symm.trans hready) Bool.false_ne_true

/-- A disk that is read and cannot be written: reading the volume takes 15 accesses. -/
def protectedDisk : Device :=
  { smallDisk with
    faults n := if n < 15 then none else some ⟨.deviceError, smallVolume, nofun⟩ }

/-- A protected disk and a working one. -/
def twoDisks (disk : Bool) : Device := if disk then smallDisk else protectedDisk

/-- The protected disk is mounted where the VFS does not take it. -/
def mountRefused : Request Bool where
  node := some (some false)
  path := [Vfs.slash]
  base := none
  allocated := true
  storage _ _ := 0
  bounceRoom := true
  upcaseRoom := true
  blockRoom := true
  accepted := false

set_option maxRecDepth 1000000 in
theorem mountRefused_ready :
    let sys := step (start twoDisks) (.mount mountRefused)
    ((sys.slots 0).cache.ready && !(sys.slots 0).used && !(sys.slots 1).used) = true := by
  decide +kernel

/-- **A slot that is lost**: after the protected disk, no disk can be mounted any more, and no slot
is used. -/
theorem mountDevice_stale :
    ¬Throughout Proper (start twoDisks) (fun _ => none) [.mount mountRefused] ∧
      (∀ i, ((step (start twoDisks) (.mount mountRefused)).slots i).used = false) ∧
      ∀ r d target, r.node = some (some d) →
        Vfs.normalize r.path r.base Vfs.maxPathLength = some target →
        (mountDevice (step (start twoDisks) (.mount mountRefused)) r).1 = some .outOfMemory := by
  have hend := mountRefused_ready
  dsimp only at hend
  rw [Bool.and_eq_true, Bool.and_eq_true, Bool.not_eq_true', Bool.not_eq_true'] at hend
  obtain ⟨⟨hready, hfirst⟩, hsecond⟩ := hend
  have hunused : ∀ i, ((step (start twoDisks) (.mount mountRefused)).slots i).used = false :=
    Fin.forall_fin_two.mpr ⟨hfirst, hsecond⟩
  refine ⟨fun hproper => ?_, hunused, fun r d target hnode hpath => ?_⟩
  · exact nomatch (hproper.1.idle 0 hfirst).1.symm.trans hready
  · exact mountDevice_refused hunused hready hnode hpath

end ShirleysOS.Fs
