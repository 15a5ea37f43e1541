import ShirleysOS.Paging.Teardown
import ShirleysOS.User.Loader

/-!
# Launching programs

`launch` reads an image, builds an address space for it (the managed memory on x86_64, the kernel
and the devices, all mapped to themselves for the kernel only, then the program), runs the program
and tears the address space down again. Source: `kernel/user/launch.cpp`.

The result of reading the file is a parameter, and a program is the list of programs that it
executes before it exits: what it does to its own pages is left out.
-/

namespace ShirleysOS.User

open Lib Paging
open Memory (pageSize)

/-! ## The model -/

/-- The two architectures; `nxSupported` is `cpu_nx_supported()`. -/
inductive Arch where
  | x8664 (nxSupported : Bool)
  | arm64

namespace Arch

def format : Arch → Format
  | x8664 nxSupported => Paging.x8664 nxSupported
  | arm64 => Paging.arm64

def machine : Arch → ℕ
  | x8664 _ => elfMachineX8664
  | arm64 => elfMachineAarch64

/-- The number of bits of a physical address. -/
def width : Arch → ℕ
  | x8664 _ => 52
  | arm64 => 48

theorem lawful : ∀ arch : Arch, arch.format.Lawful arch.width
  | x8664 nxSupported => x8664_lawful nxSupported
  | arm64 => arm64_lawful

end Arch

/-- `MmioRegion`. -/
structure MmioRegion where
  base : ℕ
  bytes : ℕ

/-- What `launch` finds: the kernel image, the device memory and the managed extents, whose
beginnings are page boundaries. -/
structure Platform where
  kernelStart : ℕ
  kernelEnd : ℕ
  regions : List MmioRegion
  extents : List Memory.Extent
  aligned : ∀ e ∈ extents, pageSize ∣ e.begin

section Model

variable {σ : Type} (S : AddressSpace σ)

/-- The first, and then the second if the first succeeds. -/
def andThen (first second : σ → Bool × σ) (s : σ) : Bool × σ :=
  match first s with
  | (false, s) => (false, s)
  | (true, s) => second s

/-- A loop that maps `count` pages from `address` on to themselves. -/
def mapIdentity (flags : PageFlags) : ℕ → ℕ → σ → Bool × σ
  | 0, _, s => (true, s)
  | count + 1, address, s =>
    andThen (S.map address address flags) (mapIdentity flags count (address + pageSize)) s

/-- The next page boundary, in 64-bit arithmetic. -/
def pageUp (address : ℕ) : ℕ := pageOf ((address + pageSize - 1) % Word.size)

/-- The flags of device memory, of the kernel image and of managed memory. -/
def deviceFlags : PageFlags := { read := true, write := true, device := true }
def kernelFlags : PageFlags := { read := true, write := true, execute := true }
def managedFlags : PageFlags := { read := true, write := true }

/-- `map_platform_devices`. -/
def mapPlatformDevices : List MmioRegion → σ → Bool × σ
  | [], s => (true, s)
  | region :: rest, s =>
    if region.bytes = 0 then mapPlatformDevices rest s
    else
      let first := pageOf region.base
      let last := pageUp (region.base + region.bytes)
      andThen (mapIdentity S deviceFlags ((last - first) / pageSize) first)
        (mapPlatformDevices rest) s

/-- `map_kernel`. -/
def mapKernel (P : Platform) : σ → Bool × σ :=
  mapIdentity S kernelFlags ((pageUp P.kernelEnd - pageOf P.kernelStart) / pageSize)
    (pageOf P.kernelStart)

/-- `map_managed_memory`. -/
def mapManagedMemory : List Memory.Extent → σ → Bool × σ
  | [], s => (true, s)
  | e :: rest, s =>
    andThen (mapIdentity S managedFlags ((e.stop - e.begin + pageSize - 1) / pageSize) e.begin)
      (mapManagedMemory rest) s

/-- The mappings that are made before the program is loaded. -/
def mapSystem (P : Platform) : Arch → σ → Bool × σ
  | .x8664 _ =>
    andThen (mapManagedMemory S P.extents)
      (andThen (mapKernel S P) (mapPlatformDevices S P.regions))
  | .arm64 => andThen (mapKernel S P) (mapPlatformDevices S P.regions)

end Model

section Launch

variable {α : Type} (A : PageSource α) (P : Platform) (arch : Arch)

/-- The address space that `launch` builds: its root (0 without one), and what is known of the
program when it has been loaded. -/
def construct (image : Bytes) (size : ℕ) (s : Machine α) : ℕ × Option Image × Machine α :=
  match initializeTable A s with
  | (root, s) =>
    if root = 0 then (0, none, s)
    else
      match mapSystem (pageTable arch.format A root) P arch s with
      | (false, s) => (root, none, s)
      | (true, s) => (root, loadElf (pageTable arch.format A root) image size arch.machine s)

/-- A program: the contents of its file with their length, if the file can be read, and the
programs that it executes before it exits. -/
inductive Program where
  | mk (file : Option (Bytes × ℕ)) (executes : List Program)

mutual

/-- `launch`: whether the program ran. The address space is torn down on every way out. -/
def launch : Program → Machine α → Bool × Machine α
  | .mk none _, s => (false, s)
  | .mk (some (image, size)) executes, s =>
    match construct A P arch image size s with
    | (root, none, s) => (false, destroy arch.format A root s)
    | (root, some _, s) => (true, destroy arch.format A root (launchAll executes s))

/-- One program after the other. -/
def launchAll : List Program → Machine α → Machine α
  | [], s => s
  | program :: rest, s => launchAll rest (launch program s).2

end

end Launch

/-! ## Identity mappings -/

section Identity

variable {σ : Type} {S : AddressSpace σ} {Frame : ℕ → Prop} {limit : ℕ} {Rep : Layout → σ → Prop}
  {g : Layout} {s s' : σ}

theorem andThen_eq_true {first second : σ → Bool × σ} (h : andThen first second s = (true, s')) :
    ∃ sa, first s = (true, sa) ∧ second sa = (true, s') := by
  unfold andThen at h
  split at h
  · exact absurd (Prod.mk.inj h).1 (by decide)
  · rename_i sa hfirst
    exact ⟨sa, hfirst, h⟩

/-- The pages of the kernel: each is mapped to itself, and not for user mode. -/
def KernelOnly (g : Layout) : Prop :=
  ∀ v p flags, g.pages v = some (p, flags) → p = v * pageSize ∧ flags.user = false

/-- What a part of the system's mappings does: it maps the pages of `V` to themselves, for the
kernel only, and unmaps none. -/
structure MapsKernel (Rep : Layout → σ → Prop) (V : ℕ → Prop) (g : Layout) (s' : σ) (g' : Layout) :
    Prop where
  rep : Rep g' s'
  grows : g.Grows g'
  only : KernelOnly g'
  keep : ∀ v, g.pages v ≠ none → g'.pages v ≠ none
  maps : ∀ v, V v → g'.pages v ≠ none

theorem mapIdentity_spec (hS : S.Lawful Frame limit Rep) {flags : PageFlags}
    (huser : flags.user = false) {count address : ℕ} (hrep : Rep g s) (honly : KernelOnly g)
    (haligned : pageSize ∣ address) (hlimit : address + count * pageSize ≤ limit)
    (hframe : ∀ p, pageSize ∣ p → p < limit → Frame p)
    (h : mapIdentity S flags count address s = (true, s')) :
    ∃ g', MapsKernel Rep (fun v => address / pageSize ≤ v ∧ v < address / pageSize + count) g s'
      g' := by
  induction count generalizing address g s with
  | zero =>
    obtain rfl : s = s' := (Prod.mk.inj h).2
    exact ⟨g, hrep, Layout.Grows.of_eq rfl rfl, honly, fun _ hv => hv, fun v hv => by omega⟩
  | succ count ih =>
    have hpos : 0 < pageSize := by decide
    rw [Nat.succ_mul] at hlimit
    obtain ⟨sa, hfirst, hrest⟩ := andThen_eq_true h
    obtain ⟨ga, hrepa, hgrows, hpages, -⟩ := hS.map g s address address flags true sa hrep haligned
      (by omega) (hframe address haligned (by omega)) hfirst
    rw [if_pos rfl, Layout.mapped] at hpages
    -- the new page is mapped to itself, and not for the user
    have honlya : KernelOnly ga := by
      intro v p flags' hv
      rw [hpages] at hv
      by_cases hself : v = address / pageSize
      · rw [hself, Function.update_self] at hv
        obtain ⟨rfl, rfl⟩ := Prod.mk.inj (Option.some.inj hv)
        exact ⟨by rw [hself, Nat.div_mul_cancel haligned], huser⟩
      · rw [Function.update_of_ne hself] at hv
        exact honly v p flags' hv
    obtain ⟨g', hmaps⟩ := ih hrepa honlya (Nat.dvd_add haligned (Nat.dvd_refl pageSize)) (by omega)
      hrest
    rw [Nat.add_div_right address hpos] at hmaps
    refine ⟨g', hmaps.rep, hgrows.trans hmaps.grows, hmaps.only, fun v hv => hmaps.keep v ?_,
      fun v hv => ?_⟩
    · rw [hpages]
      by_cases hself : v = address / pageSize
      · rw [hself, Function.update_self]
        exact Option.some_ne_none _
      · rwa [Function.update_of_ne hself]
    · by_cases hself : v = address / pageSize
      · apply hmaps.keep
        rw [hpages, hself, Function.update_self]
        exact Option.some_ne_none _
      · exact hmaps.maps v (by omega)

theorem MapsKernel.trans {V V' : ℕ → Prop} {g' g'' : Layout} {s'' : σ}
    (h : MapsKernel Rep V g s' g') (h' : MapsKernel Rep V' g' s'' g'') :
    MapsKernel Rep (fun v => V v ∨ V' v) g s'' g'' where
  rep := h'.rep
  grows := h.grows.trans h'.grows
  only := h'.only
  keep v hv := h'.keep v (h.keep v hv)
  maps v hv := hv.elim (fun hv => h'.keep v (h.maps v hv)) (h'.maps v)

theorem MapsKernel.mono {V V' : ℕ → Prop} {g' : Layout} (h : MapsKernel Rep V g s' g')
    (hV : ∀ v, V' v → V v) : MapsKernel Rep V' g s' g' :=
  ⟨h.rep, h.grows, h.only, h.keep, fun v hv => h.maps v (hV v hv)⟩

/-- The addresses that the kernel is given lie below `limit`. -/
structure Platform.Below (P : Platform) (limit : ℕ) : Prop where
  kernel : P.kernelStart ≤ limit ∧ P.kernelEnd ≤ limit
  regions : ∀ region ∈ P.regions, region.base + region.bytes ≤ limit
  extents : ∀ e ∈ P.extents, e.begin ≤ limit ∧ e.stop ≤ limit

/-- The page number belongs to a managed extent. -/
def Managed (extents : List Memory.Extent) (v : ℕ) : Prop :=
  ∃ e ∈ extents, e.begin ≤ v * pageSize ∧ v * pageSize < e.stop

/-- The page number belongs to the kernel image. -/
def Platform.Kernel (P : Platform) (v : ℕ) : Prop :=
  P.kernelStart / pageSize ≤ v ∧ v * pageSize < P.kernelEnd

theorem pageOf_le (x : ℕ) : pageOf x ≤ x := Nat.sub_le x _

theorem dvd_pageOf (x : ℕ) : pageSize ∣ pageOf x := Nat.dvd_sub_mod x

theorem pageUp_spec {x : ℕ} (hx : x ≤ 2 ^ 48) :
    pageSize ∣ pageUp x ∧ x ≤ pageUp x ∧ pageUp x ≤ 2 ^ 48 := by
  have hmod : (x + pageSize - 1) % Word.size = x + pageSize - 1 :=
    Nat.mod_eq_of_lt (by simp only [pageSize, Word.size]; omega)
  refine ⟨dvd_pageOf _, ?_, ?_⟩ <;> rw [pageUp, hmod, pageOf] <;> unfold pageSize <;> omega

variable {P : Platform} (hS : S.Lawful Frame (2 ^ 48) Rep)
  (hframe : ∀ p, pageSize ∣ p → p < 2 ^ 48 → Frame p) (hrep : Rep g s) (honly : KernelOnly g)
include hS hframe hrep honly

theorem mapManagedMemory_spec {extents : List Memory.Extent}
    (haligned : ∀ e ∈ extents, pageSize ∣ e.begin)
    (hbelow : ∀ e ∈ extents, e.begin ≤ 2 ^ 48 ∧ e.stop ≤ 2 ^ 48)
    (h : mapManagedMemory S extents s = (true, s')) :
    ∃ g', MapsKernel Rep (Managed extents) g s' g' := by
  induction extents generalizing g s with
  | nil =>
    obtain rfl : s = s' := (Prod.mk.inj h).2
    exact ⟨g, hrep, Layout.Grows.of_eq rfl rfl, honly, fun _ hv => hv, fun v ⟨e, he, _⟩ =>
      nomatch he⟩
  | cons e rest ih =>
    obtain ⟨sa, hfirst, hrest⟩ := andThen_eq_true h
    obtain ⟨hbegin, hstop⟩ := hbelow e List.mem_cons_self
    obtain ⟨q, hq⟩ := haligned e List.mem_cons_self
    have hlimit : e.begin + (e.stop - e.begin + pageSize - 1) / pageSize * pageSize ≤ 2 ^ 48 := by
      unfold pageSize at *
      omega
    obtain ⟨ga, hmaps⟩ := mapIdentity_spec hS rfl hrep honly ⟨q, hq⟩ hlimit hframe hfirst
    obtain ⟨g', hmaps'⟩ := ih hmaps.rep hmaps.only
      (fun b hb => haligned b (List.mem_cons_of_mem e hb))
      (fun b hb => hbelow b (List.mem_cons_of_mem e hb)) hrest
    refine ⟨g', (hmaps.trans hmaps').mono fun v hv => ?_⟩
    obtain ⟨b, hb, hlow, hhigh⟩ := hv
    rcases List.mem_cons.mp hb with rfl | hb
    · left
      unfold pageSize at *
      omega
    · exact Or.inr ⟨b, hb, hlow, hhigh⟩

theorem mapKernel_spec (hP : P.Below (2 ^ 48)) (h : mapKernel S P s = (true, s')) :
    ∃ g', MapsKernel Rep P.Kernel g s' g' := by
  obtain ⟨hstart, hend⟩ := hP.kernel
  obtain ⟨hdvd, hle, hlast⟩ := pageUp_spec hend
  have hround := Nat.div_mul_le_self (pageUp P.kernelEnd - pageOf P.kernelStart) pageSize
  have hlow := pageOf_le P.kernelStart
  obtain ⟨g', hmaps⟩ := mapIdentity_spec hS rfl hrep honly (dvd_pageOf _) (by omega) hframe h
  refine ⟨g', hmaps.mono fun v ⟨hv, hv'⟩ => ?_⟩
  have hfirst : pageOf P.kernelStart = pageSize * (P.kernelStart / pageSize) :=
    alignDown_eq P.kernelStart
  obtain ⟨q, hq⟩ := hdvd
  rw [hfirst, hq, ← Nat.mul_sub, Nat.mul_div_cancel_left _ (by decide),
    Nat.mul_div_cancel_left _ (by decide)]
  have hvq : v < q := by
    apply Nat.lt_of_mul_lt_mul_left (a := pageSize)
    rw [Nat.mul_comm, ← hq]
    omega
  omega

theorem mapPlatformDevices_spec {regions : List MmioRegion}
    (hbelow : ∀ region ∈ regions, region.base + region.bytes ≤ 2 ^ 48)
    (h : mapPlatformDevices S regions s = (true, s')) :
    ∃ g', MapsKernel Rep (fun _ => False) g s' g' := by
  induction regions generalizing g s with
  | nil =>
    obtain rfl : s = s' := (Prod.mk.inj h).2
    exact ⟨g, hrep, Layout.Grows.of_eq rfl rfl, honly, fun _ hv => hv, fun _ hv => hv.elim⟩
  | cons region rest ih =>
    have hrest := fun b hb => hbelow b (List.mem_cons_of_mem region hb)
    rw [mapPlatformDevices] at h
    split at h
    · exact ih hrep honly hrest h
    obtain ⟨sa, hfirst, hnext⟩ := andThen_eq_true h
    have hregion := hbelow region List.mem_cons_self
    obtain ⟨-, -, hlast⟩ := pageUp_spec hregion
    have hround := Nat.div_mul_le_self
      (pageUp (region.base + region.bytes) - pageOf region.base) pageSize
    have hlow := pageOf_le region.base
    obtain ⟨ga, hmaps⟩ := mapIdentity_spec hS rfl hrep honly (dvd_pageOf _) (by omega) hframe hfirst
    obtain ⟨g', hmaps'⟩ := ih hmaps.rep hmaps.only hrest hnext
    exact ⟨g', (hmaps.trans hmaps').mono fun _ hv => hv.elim⟩

/-- The mappings for the kernel on x86_64. -/
theorem mapSystem_spec {nxSupported : Bool} (hP : P.Below (2 ^ 48))
    (h : mapSystem S P (.x8664 nxSupported) s = (true, s')) :
    ∃ g', MapsKernel Rep (fun v => P.Kernel v ∨ Managed P.extents v) g s' g' := by
  obtain ⟨sa, hmanaged, h⟩ := andThen_eq_true h
  obtain ⟨sb, hkernel, hdevices⟩ := andThen_eq_true h
  obtain ⟨ga, hga⟩ := mapManagedMemory_spec hS hframe hrep honly P.aligned hP.extents hmanaged
  obtain ⟨gb, hgb⟩ := mapKernel_spec hS hframe hga.rep hga.only hP hkernel
  obtain ⟨g', hg'⟩ := mapPlatformDevices_spec hS hframe hgb.rep hgb.only hP.regions hdevices
  exact ⟨g', ((hga.trans hgb).trans hg').mono fun v hv => Or.inl hv.symm⟩

end Identity

/-! ## The kernel's pages -/

section Protects

variable {α : Type} {A : PageSource α} {managed : Set ℕ} {free : α → Finset ℕ} {P : Platform}

/-- A page that the kernel must keep: one of its image, or one that the allocator manages. -/
def Platform.Keeps (P : Platform) (v : ℕ) : Prop := P.Kernel v ∨ Managed P.extents v

theorem Platform.Below.keeps_lt (hP : P.Below (2 ^ 48)) {address : ℕ}
    (h : P.Keeps (address / pageSize)) : address < 2 ^ 48 := by
  have hpage : address / pageSize * pageSize < 2 ^ 48 := by
    rcases h with ⟨-, hlt⟩ | ⟨e, he, -, hlt⟩
    · exact hlt.trans_le hP.kernel.2
    · exact hlt.trans_le (hP.extents e he).2
  unfold pageSize at hpage
  omega

/-- The steps of an address space that is built to the end. -/
theorem construct_eq_some {arch : Arch} {image : Bytes} {size root : ℕ} {result : Image}
    {s s' : Machine α} (h : construct A P arch image size s = (root, some result, s')) :
    ∃ sa sb, root ≠ 0 ∧ initializeTable A s = (root, sa) ∧
      mapSystem (pageTable arch.format A root) P arch sa = (true, sb) ∧
      loadElf (pageTable arch.format A root) image size arch.machine sb = (some result, s') := by
  unfold construct at h
  split at h
  rename_i root' sa hinit
  split at h
  · exact absurd (Prod.mk.inj (Prod.mk.inj h).2).1 nofun
  rename_i hroot
  split at h
  · exact absurd (Prod.mk.inj (Prod.mk.inj h).2).1 nofun
  rename_i sb hsystem
  obtain ⟨rfl, hload⟩ := Prod.mk.inj h
  exact ⟨sa, sb, hroot, hinit, hsystem, hload⟩

/-- On x86_64 the address space has the kernel's pages before the program is loaded; its tables
were free. -/
theorem construct_system {nxSupported : Bool} (hA : A.Correct 52 managed free)
    (hP : P.Below (2 ^ 48)) {root : ℕ} {s sa sb : Machine α} (hroot : root ≠ 0)
    (hinit : initializeTable A s = (root, sa))
    (hsystem : mapSystem (pageTable (x8664 nxSupported) A root) P (.x8664 nxSupported) sa =
      (true, sb)) :
    ∃ g₀ g, MapsKernel (PageTableRep (x8664 nxSupported) 52 managed free root) P.Keeps g₀ sb g ∧
      g₀.free ∪ g₀.tables = free s.pages := by
  have hS := pageTable_lawful (x8664_lawful nxSupported) hA root
  -- the new address space maps nothing
  obtain ⟨hzero, -⟩ | ⟨howned, hunion, hleaf⟩ :=
    initializeTable_spec (F := x8664 nxSupported) hA hinit
  · exact absurd hzero hroot
  have hrep : PageTableRep (x8664 nxSupported) 52 managed free root
      ⟨fun _ => none, (Tables.single root).pages, free sa.pages⟩ sa :=
    ⟨Tables.single root, howned, rfl, rfl, hleaf⟩
  obtain ⟨g, hg⟩ := mapSystem_spec hS
    (fun p hdvd hlt => ⟨hdvd, hlt.trans_le (Nat.pow_le_pow_right (by decide) (by decide))⟩) hrep
    (fun v p flags hv => nomatch hv) hP hsystem
  exact ⟨_, g, hg, hunion⟩

/-- **The kernel's pages survive the loading of a program** on x86_64, when the file contents of its
segments are copied to their own pages only, neither the segments nor the stack use the number of a
page that the kernel must keep, and the addresses of the kernel are below `2 ^ 48`: each such page
is mapped to itself, and not for user mode. -/
theorem construct_protects {nxSupported : Bool} (hA : A.Correct 52 managed free)
    (hP : P.Below (2 ^ 48)) {image : Bytes} {size root : ℕ} {result : Image} {s s' : Machine α}
    (hinside : ∀ segment ∈ loadSegments image, segment.CopiedInside)
    (hclear : ∀ v, P.Keeps v →
      v ≠ userStackPage / pageSize ∧ ∀ segment ∈ loadSegments image, ¬ segment.HasPage v)
    (h : construct A P (.x8664 nxSupported) image size s = (root, some result, s')) (address : ℕ)
    (hkeeps : P.Keeps (address / pageSize)) :
    translate (x8664 nxSupported) s'.mem root address = address ∧
      X8664.userAccessible s'.mem root address = false := by
  have hlimit := hP.keeps_lt hkeeps
  obtain ⟨sa, sb, hroot, hinit, hsystem, hload⟩ := construct_eq_some h
  obtain ⟨g₀, g, hg, -⟩ := construct_system hA hP hroot hinit hsystem
  have hS := pageTable_lawful (x8664_lawful nxSupported) hA root
  -- the program leaves the kernel's pages alone
  obtain ⟨g', hrep', -, hothers, -⟩ := loadElf_spec hS (by decide) hg.rep hinside hload
  obtain ⟨hstack, hsegments⟩ := hclear _ hkeeps
  have hsame := hothers _ hstack hsegments
  cases hpage : g.pages (address / pageSize) with
  | none => exact absurd hpage (hg.maps _ hkeeps)
  | some entry =>
    obtain ⟨p, flags⟩ := entry
    obtain ⟨rfl, huser⟩ := hg.only _ p flags hpage
    rw [hpage] at hsame
    constructor
    · have htranslate := hS.translate g' s' address hrep' hlimit
      rw [Layout.translate, hsame] at htranslate
      exact htranslate.trans (Nat.div_add_mod' address pageSize)
    · obtain ⟨T, hT, -, -, hpages⟩ := hrep'
      have hentry := hpages (address / pageSize)
      rw [hsame] at hentry
      apply X8664.userAccessible_eq_false hT.toTree hlimit
      rw [hentry.1, x8664_user nxSupported flags hentry.2, huser]

end Protects

/-! ## A small machine -/

/-- The free pages among some that are managed, as a list. -/
structure Pool (managed : List ℕ) where
  pages : List ℕ
  nodup : pages.Nodup
  inside : ∀ p ∈ pages, p ∈ managed

/-- The allocator that keeps its free pages in a list. -/
def poolPages (managed : List ℕ) : PageSource (Pool managed) where
  allocatePage
    | ⟨[], hnodup, hinside⟩ => (0, ⟨[], hnodup, hinside⟩)
    | ⟨p :: rest, hnodup, hinside⟩ =>
      (p, ⟨rest, (List.nodup_cons.mp hnodup).2, fun q hq =>
        hinside q (List.mem_cons_of_mem p hq)⟩)
  freePage p pool :=
    if h : p ∈ managed ∧ p ∉ pool.pages then
      ⟨p :: pool.pages, List.nodup_cons.mpr ⟨h.2, pool.nodup⟩,
        List.forall_mem_cons.mpr ⟨h.1, pool.inside⟩⟩
    else pool

/-- The free pages of a pool. -/
def Pool.free {managed : List ℕ} (pool : Pool managed) : Finset ℕ := pool.pages.toFinset

theorem poolPages_correct {managed : List ℕ} {width : ℕ}
    (h : ∀ p ∈ managed, ValidFrame width p ∧ p ≠ 0) :
    (poolPages managed).Correct width {p | p ∈ managed} Pool.free where
  frame := h
  inside pool p hp := pool.inside p (List.mem_toFinset.mp hp)
  allocate := by
    rintro ⟨_ | ⟨p, rest⟩, hnodup, hinside⟩
    · exact Or.inl ⟨rfl, rfl⟩
    · right
      have hnot : p ∉ rest := (List.nodup_cons.mp hnodup).1
      refine ⟨List.mem_toFinset.mpr List.mem_cons_self, ?_⟩
      simp [poolPages, Pool.free, hnot]
  freePage pool p hp hfree := by
    have hnot : p ∉ pool.pages := fun hmem => hfree (List.mem_toFinset.mpr hmem)
    simp only [poolPages]
    rw [dif_pos ⟨hp, hnot⟩]
    simp [Pool.free]

/-- Eight pages to manage. -/
def eightPages : List ℕ :=
  [0x100000, 0x101000, 0x102000, 0x103000, 0x104000, 0x105000, 0x106000, 0x107000]

theorem eightPages_valid : ∀ p ∈ eightPages, ValidFrame 52 p ∧ p ≠ 0 := by
  intro p hp
  simp only [eightPages, List.mem_cons, List.not_mem_nil, or_false] at hp
  rcases hp with rfl | rfl | rfl | rfl | rfl | rfl | rfl | rfl <;>
    exact ⟨⟨by decide, by decide⟩, by decide⟩

/-- A kernel of one page, which manages the eight pages. -/
def smallPlatform : Platform where
  kernelStart := 0x10000
  kernelEnd := 0x11000
  regions := []
  extents := [⟨0x100000, 0x108000⟩]
  aligned := by decide

/-- All eight pages are free. -/
def smallMachine : Machine (Pool eightPages) := ⟨fun _ => 0, ⟨eightPages, by decide, fun _ h => h⟩⟩

/-- The address space of a program of one byte. -/
def smallSpace (virtualAddress : ℕ) : ℕ × Option Image × Machine (Pool eightPages) :=
  construct (poolPages eightPages) smallPlatform (.x8664 true) (byteImage virtualAddress) 121
    smallMachine

theorem smallPlatform_below : smallPlatform.Below (2 ^ 48) where
  kernel := by decide
  regions := by simp [smallPlatform]
  extents := by simp [smallPlatform]

/-- The byte of the program is not on a page boundary, and the kernel keeps its page. -/
theorem construct_protects_smallSpace :
    translate (x8664 true) (smallSpace 0x1010).2.2.mem (smallSpace 0x1010).1 0x10000 = 0x10000 ∧
      X8664.userAccessible (smallSpace 0x1010).2.2.mem (smallSpace 0x1010).1 0x10000 = false := by
  have hsegments : loadSegments (byteImage 0x1010) =
      [⟨120, 1, 0, 0x1010, 1, true, true, false⟩] := by decide
  have hspace : smallSpace 0x1010 = ((smallSpace 0x1010).1,
      some ⟨0x1000, userStackTop, userStackPage, 1⟩, (smallSpace 0x1010).2.2) :=
    Prod.ext rfl (Prod.ext (by decide +kernel) rfl)
  refine construct_protects (poolPages_correct eightPages_valid) smallPlatform_below
    (by rw [hsegments]; decide) (fun v hv => ?_) hspace 0x10000
    (Or.inl ⟨by decide, by decide⟩)
  -- the kernel and the managed pages are apart from the first page and the stack
  have hrange : 16 ≤ v ∧ v < 17 ∨ 256 ≤ v ∧ v < 264 := by
    rcases hv with ⟨hlow, hhigh⟩ | ⟨e, he, hlow, hhigh⟩
    · simp only [smallPlatform, pageSize] at hlow hhigh
      omega
    · simp only [smallPlatform, List.mem_singleton] at he
      subst he
      simp only [pageSize] at hlow hhigh
      omega
  rw [hsegments]
  constructor
  · simp only [userStackPage, userStackTop, pageSize]
    omega
  · intro segment hsegment hpage
    rw [List.mem_singleton] at hsegment
    subst hsegment
    simp only [Elf64Segment.HasPage, pageSize] at hpage
    omega

/-- A program with a segment at the address of the kernel takes the place of the kernel's page. -/
theorem kernel_replaced :
    (smallSpace 0x10000).2.1 = some ⟨0x1000, userStackTop, userStackPage, 1⟩ ∧
      smallPlatform.Keeps (0x10000 / pageSize) ∧
      translate (x8664 true) (smallSpace 0x10000).2.2.mem (smallSpace 0x10000).1 0x10000 ≠ 0x10000 ∧
      X8664.userAccessible (smallSpace 0x10000).2.2.mem (smallSpace 0x10000).1 0x10000 = true := by
  exact ⟨by decide +kernel, Or.inl ⟨by decide, by decide⟩, by decide +kernel, by decide +kernel⟩

end ShirleysOS.User
