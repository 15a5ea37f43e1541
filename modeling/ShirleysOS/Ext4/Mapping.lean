import ShirleysOS.Ext4.Trees

/-!
# The driver over a device that does not fail

Over a device that does not fail the driver loads the inodes of the image, finds the blocks that
their maps say and reads the contents of their files, whatever extent it remembers from before.
-/

namespace ShirleysOS.Ext4

open Lib Storage

variable {d : Device} {g : Image} {v v' : Volume} {inode : Inode}

/-- On a stretch the map of a file is one run, or all of it is a hole. -/
def Image.Stretch (g : Image) (inode : Inode) (start length target : ℕ) : Prop :=
  ∀ k < length, g.mapped inode (start + k) = some (ahead target k)

variable {length logical offset physical done : ℕ}

theorem Image.Stretch.seenFrom {start target : ℕ} (h : g.Stretch inode start length target)
    (hstart : start ≤ logical) :
    g.Stretch inode logical (length - (logical - start)) (ahead target (logical - start)) := by
  intro k hk
  have hat := h (logical - start + k) (by omega)
  rw [show start + (logical - start + k) = logical + k by omega] at hat
  rw [hat, ahead_ahead]

/-- A volume that is mounted on an image. -/
structure Mounted (d : Device) (g : Image) (v : Volume) : Prop where
  device : v.deviceBlock = d.blockSize
  block : 0 < d.blockSize
  ok : v.layout.Ok
  fits : v.layout.volumeBytes ≤ d.blockCount * d.blockSize
  content : g.content = d.content
  layout : v.layout = g.layout

theorem Sound.mounted (h : Sound d v) (hcontent : g.content = d.content)
    (hlayout : v.layout = g.layout) : Mounted d g v :=
  ⟨h.device, h.block, h.layout, h.fits, hcontent, hlayout⟩

theorem Mounted.of_keeps (h : Mounted d g v) (hkeeps : Keeps v v') : Mounted d g v' :=
  ⟨hkeeps.deviceBlock.trans h.device, h.block, by rw [hkeeps.layout]; exact h.ok,
    by rw [hkeeps.layout]; exact h.fits, h.content, hkeeps.layout.trans h.layout⟩

/-- The extent that is remembered, when it is one of a file whose map is right, is a stretch of
it. -/
def Remembers (g : Image) (v : Volume) : Prop :=
  ∀ inode, g.inode v.extent.inode = some inode → g.Good inode →
    g.Stretch inode v.extent.logical v.extent.length v.extent.physical

/-- What holds over a device that may fail holds over one that does not. -/
theorem always_exact {α : Type} {R : ℕ → ℕ → Prop} {p : Driver α} {Q : α → Volume → Prop}
    (h : always d.answers R p Q v) : always d.exact anyRead p Q v :=
  (h.fewer fun _ _ _ => Device.exact_answers).anyRead

/-! ## Inodes -/

theorem fetch_exact (hm : Mounted d g v) (hrange : offset + length ≤ v.layout.volumeBytes) :
    always d.exact anyRead (fetch offset length)
      (fun out v' => v' = v ∧ out = .ok (g.cut offset length)) v := by
  rw [fetch, always_bind, always_get, always_lift, hm.device, Image.cut, hm.content]
  exact (readBytes_exact hm.block (fun _ _ _ => trivial) (Nat.le_trans hrange hm.fits)).mono
    fun out hout => ⟨rfl, hout⟩

theorem fillBlock_exact (hm : Mounted d g v) (hphysical : physical < v.layout.blocksCount) :
    always d.exact anyRead (fillBlock physical)
      (fun ok v' => ok = true ∧ v'.block = g.block physical ∧ Keeps v v') v := by
  rw [fillBlock, always_bind, always_get, always_bind, always_modify, always_bind, touch,
    always_modify, always_bind]
  have hcleared : Mounted d g { v with
      loaded := ⟨0, 0⟩, touched := [⟨.block, 0, v.layout.blockBytes⟩] ++ v.touched } :=
    hm.of_keeps ⟨rfl, rfl, rfl, rfl, rfl⟩
  refine (fetch_exact hcleared (Layout.inside hphysical (Nat.le_of_eq (Nat.zero_add _)))).mono
    fun out v' h => ?_
  obtain ⟨rfl, rfl⟩ := h
  refine ⟨rfl, ?_, ⟨rfl, rfl, rfl, rfl, rfl⟩⟩
  rw [Image.block, ← hm.layout]
  rfl

/-- **Loading an inode** gives that of the image. -/
theorem loadInode_exact (hm : Mounted d g v) (number : ℕ) :
    always d.exact anyRead (loadInode number) (fun out _ => out = g.inode number) v := by
  rw [loadInode, always_bind, always_get, Image.inode, ← hm.layout]
  dsimp only
  split
  · rfl
  cases hdescriptor : descriptorOffset v.layout ((number - 1) / v.layout.inodesPerGroup) with
  | none => rfl
  | some offset =>
    dsimp only
    rw [always_bind]
    refine (fetch_exact hm (descriptorOffset_inside hm.ok hdescriptor)).mono fun out v' h => ?_
    obtain ⟨rfl, rfl⟩ := h
    dsimp only
    cases htable : inodeTable v'.layout (g.cut offset
      (if v'.layout.descriptorBytes < 64 then v'.layout.descriptorBytes else 64)) with
    | none => rfl
    | some table =>
      dsimp only
      rw [always_bind]
      have hinside := inodeTable_inside hm.ok htable (Nat.mod_lt (number - 1) hm.ok.perGroup)
      refine (fetch_exact hm hinside).mono fun out v'' h => ?_
      obtain ⟨rfl, rfl⟩ := h
      rfl

theorem inode_loadable {number : ℕ} (h : g.inode number = some inode) :
    inode.Loadable g.layout number := by
  unfold Image.inode at h
  dsimp only at h
  split at h
  · cases h
  next hnumber =>
  split at h
  · cases h
  split at h
  · cases h
  exact decodeInode_loadable (fun h => hnumber (.inl h)) h

/-! ## Extent trees -/

section Descent

variable {lo hi logical : ℕ}

/-- The answer for a block is a stretch that the map has around it, and it is remembered. -/
def Found (f : ℕ → ℕ) (lo hi logical number : ℕ) (out : Option (ℕ × ℕ)) (v : Volume) : Prop :=
  ∃ start length target, Placed f lo hi logical start length target ∧
    out = some (seenFrom logical start length target) ∧ v.extent = ⟨number, start, length, target⟩

theorem found_hole {f : ℕ → ℕ} {number limit : ℕ}
    (h : Placed f lo hi logical logical (limit - logical) 0)
    (hextent : v.extent = ⟨number, logical, limit - logical, 0⟩) :
    Found f lo hi logical number (some (0, limit - logical)) v :=
  ⟨logical, limit - logical, 0, h, by simp [seenFrom], hextent⟩

theorem mapLeaf_exact (hm : Mounted d g v) (number : ℕ) {node : Bytes} (buffer : Buffer)
    (hn : g.Nested 0 lo hi node) (hlo : lo ≤ logical) (hhi : logical < hi) :
    always d.exact anyRead (mapLeaf number logical node buffer hi)
      (Found (Stretch.lookup (g.runs 0 node)) lo hi logical number) v := by
  have hright : (leafScan node v.layout.blocksCount logical hi (node.nat 2 2) 0).1.Right
      (g.runs 0 node) lo hi logical := by
    rw [hm.layout]
    obtain ⟨horder, hinside⟩ := hn
    rw [Image.runs, leafExtents, List.range_eq_range'] at *
    exact leafScan_nested hhi (node.nat 2 2) 0 hlo horder hinside
  rw [mapLeaf, always_bind, always_get]
  dsimp only
  generalize leafScan node v.layout.blocksCount logical hi (node.nat 2 2) 0 = scan at *
  obtain ⟨answer, looked⟩ := scan
  dsimp only at hright ⊢
  rw [always_bind, touch, always_modify]
  cases answer with
  | bad => exact hright.elim
  | found start length target =>
    dsimp only
    rw [always_bind, remember, always_modify]
    exact ⟨start, length, target, hright, rfl, rfl⟩
  | hole limit =>
    dsimp only
    rw [always_bind, remember, always_modify]
    exact found_hole hright rfl

/-- **Going down a well-formed tree.** -/
theorem descend_exact (hm : Mounted d g v) (number depth : ℕ) {node : Bytes} (buffer : Buffer)
    (hn : g.Nested depth lo hi node) (hlo : lo ≤ logical) (hhi : logical < hi) :
    always d.exact anyRead (descend number logical depth node buffer hi)
      (Found (Stretch.lookup (g.runs depth node)) lo hi logical number) v := by
  induction depth generalizing v lo hi node buffer with
  | zero => exact mapLeaf_exact hm number buffer hn hlo hhi
  | succ depth ih =>
    have hruns : ∀ lo hi child, ((child ≠ 0 ∧ child < g.layout.blocksCount ∧
        nodeDepth (g.block child) g.layout.blockBytes = some depth) ∧
          g.Nested depth lo hi (g.block child)) →
        Stretch.InOrder lo hi (g.runs depth (g.block child)) :=
      fun _ _ _ hchild => nested_inOrder hchild.2
    have hchain := chain_inOrder hruns hn
    have hchose := indexScan_chain hruns hhi (node.nat 2 2) 0 none
      (by rw [← List.range_eq_range']; exact hn)
    rw [← List.range_eq_range'] at hchose
    rw [descend, always_bind, always_get]
    dsimp only
    generalize indexScan node logical hi (node.nat 2 2) 0 none = scan at *
    obtain ⟨chosen, limit, looked⟩ := scan
    obtain ⟨hlogical, hlimit, hcases⟩ := hchose
    dsimp only at hlogical hlimit hcases ⊢
    rw [always_bind, touch, always_modify]
    rcases hcases with ⟨rfl, hfirst⟩ | ⟨j, rfl, hafter, hj, hchild, hlookup⟩
    · -- every entry starts behind the block
      dsimp only
      rw [always_bind, remember, always_modify]
      refine found_hole (placed_hole hlo hlogical hlimit fun m _ hm => ?_) rfl
      rw [hfirst] at hm
      exact hchain.2.outside (.inl hm)
    · obtain ⟨⟨hne, hinside, hdepth⟩, hnested⟩ := hchild
      rw [← hm.layout] at hinside hdepth
      have hm' := hm.of_keeps (Keeps.touched v ([⟨buffer, 12, 12 * looked⟩] ++ v.touched))
      dsimp only
      rw [if_neg (by omega), always_bind]
      refine (fillBlock_exact hm' hinside).mono fun ok v' h => ?_
      obtain ⟨rfl, hblock, hkeeps⟩ := h
      rw [if_pos rfl, always_bind, always_get, always_bind, touch, always_modify, hblock,
        if_pos hdepth]
      have hread : Mounted d g { v' with
          block := g.block (childOf node j), touched := [⟨.block, 0, 8⟩] ++ v'.touched } :=
        (hm'.of_keeps hkeeps).of_keeps ⟨rfl, rfl, rfl, rfl, rfl⟩
      refine (ih hread .block hnested hj hlogical).mono fun out v'' h => ?_
      obtain ⟨start, length, target, hplaced, hout, hextent⟩ := h
      exact ⟨start, length, target,
        hplaced.widen (Nat.le_trans hchain.1 hafter) hlimit hlookup, hout, hextent⟩

end Descent

/-- **The blocks of a file with an extent tree.** -/
theorem mapExtent_exact (hm : Mounted d g v) (hremembers : Remembers g v)
    (hinode : g.inode inode.number = some inode) (hgood : g.Good inode)
    (hextents : has inode.flags inodeFlagExtents = true) (hlogical : logical < logicalLimit) :
    always d.exact anyRead (mapExtent inode logical)
      (fun out v' => ∃ physical run, out = some (physical, run) ∧ 0 < run ∧
        g.Stretch inode logical run physical ∧ Remembers g v') v := by
  rw [mapExtent, always_bind, always_get]
  dsimp only
  split
  · next hhit =>
    obtain ⟨hnumber, hlow, hhigh⟩ := hhit
    have hstretch := hremembers inode (by rw [hnumber]; exact hinode) hgood
    exact ⟨_, _, rfl, by omega, hstretch.seenFrom hlow, hremembers⟩
  rw [always_bind, touch, always_modify]
  obtain ⟨depth, hdepth, hnested⟩ := hgood hextents
  rw [hdepth]
  refine (descend_exact (hm.of_keeps (Keeps.touched v _)) inode.number depth .iBlock hnested
    (Nat.zero_le _) hlogical).mono fun out v' h => ?_
  obtain ⟨start, length, target, hplaced, rfl, hextent⟩ := h
  have hstretch : g.Stretch inode start length target := by
    intro k hk
    have hlimit := hplaced.high
    rw [Image.mapped, if_neg (by omega), if_pos hextents, hdepth, Option.map_some,
      hplaced.uniform (start + k) (by omega) (by omega), Nat.add_sub_cancel_left]
  have hlast := hplaced.last
  have hfirst := hplaced.first
  refine ⟨_, _, rfl, by omega, hstretch.seenFrom hfirst, fun inode' hinode' _ => ?_⟩
  rw [hextent] at hinode' ⊢
  obtain rfl : inode' = inode := Option.some.inj (hinode'.symm.trans hinode)
  exact hstretch

/-! ## Direct and indirect blocks -/

theorem pointer_exact (hm : Mounted d g v) (table : ℕ) {index : ℕ}
    (hindex : index < v.layout.blockBytes / 4) :
    always d.exact anyRead (pointer table index)
      (fun out v' => v' = v ∧ out = g.pointer table index)
      v := by
  rw [pointer, always_bind, always_get, Image.pointer, ← hm.layout]
  dsimp only
  split
  · exact ⟨rfl, rfl⟩
  split
  · exact ⟨rfl, rfl⟩
  next htable =>
  rw [always_bind]
  refine (fetch_exact hm (Layout.inside (Nat.lt_of_not_le htable) (by omega))).mono
    fun out v' h => ?_
  obtain ⟨rfl, rfl⟩ := h
  exact ⟨rfl, rfl⟩

theorem pointerLoop_exact (hm : Mounted d g v) (levels : ℕ) {span : ℕ} (value : ℕ)
    (hspan : span = (v.layout.blockBytes / 4) ^ levels) (hlogical : logical < span) :
    always d.exact anyRead (pointerLoop (v.layout.blockBytes / 4) levels span logical value)
      (fun out v' => v' = v ∧ out = g.follow levels logical value) v := by
  have hpos : 0 < v.layout.blockBytes / 4 := by
    have := hm.ok.le_blockBytes
    omega
  induction levels generalizing span logical value with
  | zero => exact ⟨rfl, rfl⟩
  | succ levels ih =>
    obtain ⟨hspan', hindex⟩ := pointer_index hpos hspan hlogical
    rw [pointerLoop, hspan', Image.follow, ← hm.layout, always_bind]
    refine (pointer_exact hm value hindex).mono fun out v' h => ?_
    obtain ⟨rfl, rfl⟩ := h
    cases g.pointer value (logical / (v'.layout.blockBytes / 4) ^ levels) with
    | none => exact ⟨rfl, rfl⟩
    | some value => exact ih value rfl (Nat.mod_lt _ (Nat.pow_pos hpos))

theorem levelLoop_eq (n index : ℕ) :
    levelLoop n 3 1 n index =
      if index < n then some (1, n, index)
      else if index < n + n ^ 2 then some (2, n ^ 2, index - n)
      else if index < n + n ^ 2 + n ^ 3 then some (3, n ^ 3, index - n - n ^ 2)
      else none := by
  have hsquare : n * n = n ^ 2 := (Nat.pow_two n).symm
  have hcube : n ^ 2 * n = n ^ 3 := (Nat.pow_succ n 2).symm
  simp only [levelLoop, hsquare, hcube]
  split_ifs <;> first | rfl | omega

/-- **The blocks of a file with a block map.** -/
theorem mapIndirect_exact (hm : Mounted d g v) (inode : Inode) (logical : ℕ) :
    always d.exact anyRead (mapIndirect inode logical)
      (fun out v' => out = g.indirect inode logical ∧ v'.extent = v.extent) v := by
  have hcount := hm.ok.count.1
  rw [mapIndirect, always_bind, always_get, Image.indirect, ← hm.layout]
  dsimp only
  split
  · rw [always_bind, touch, always_modify]
    exact ⟨rfl, rfl⟩
  -- the kinds of indirect blocks differ in the number of their levels
  have hlevels : ∀ {levels span index : ℕ}, span = (v.layout.blockBytes / 4) ^ levels →
      index < span → always d.exact anyRead (do
        touch [⟨.iBlock, 4 * (directBlocks - 1 + levels), 4⟩]
        let value ← pointerLoop (v.layout.blockBytes / 4) levels span index
          (inode.block.nat (4 * (directBlocks - 1 + levels)) 4)
        pure (inVolume v.layout value))
      (fun out v' => out = inVolume v.layout
        (g.follow levels index (inode.block.nat (4 * (directBlocks - 1 + levels)) 4)) ∧
          v'.extent = v.extent) v := by
    intro levels span index hspan hindex
    rw [always_bind, touch, always_modify, always_bind]
    have htouched := hm.of_keeps (Keeps.touched v
      ([⟨.iBlock, 4 * (directBlocks - 1 + levels), 4⟩] ++ v.touched))
    refine (pointerLoop_exact htouched levels _ hspan hindex).mono fun out v' h => ?_
    rw [h.1, h.2]
    exact ⟨rfl, rfl⟩
  rw [levelLoop_eq]
  split_ifs
  · exact hlevels (Nat.pow_one _).symm ‹_›
  · exact hlevels rfl (by omega)
  · exact hlevels rfl (by omega)
  · refine ⟨?_, rfl⟩
    change some 0 = Option.filter _ _
    rw [Option.filter_some, if_pos (by simpa using hcount)]

/-- **Finding the block of a file**: the answer is what the map says. -/
theorem mapBlock_exact (hm : Mounted d g v) (hremembers : Remembers g v)
    (hinode : g.inode inode.number = some inode) (hgood : g.Good inode) (logical : ℕ) :
    always d.exact anyRead (mapBlock inode logical)
      (fun out v' => Remembers g v' ∧ match out with
        | none => g.mapped inode logical = none
        | some (physical, run) => 0 < run ∧ g.Stretch inode logical run physical) v := by
  -- an answer of a single block is a stretch
  have hone : ∀ {physical : ℕ}, g.mapped inode logical = some physical →
      0 < 1 ∧ g.Stretch inode logical 1 physical := by
    intro physical hmapped
    refine ⟨Nat.one_pos, fun k hk => ?_⟩
    obtain rfl : k = 0 := by omega
    rw [Nat.add_zero, hmapped, ahead_zero]
  rw [mapBlock]
  split
  · next hlimit => exact ⟨hremembers, hone (if_pos hlimit)⟩
  next hlimit =>
  split
  · next hextents =>
    refine (mapExtent_exact hm hremembers hinode hgood hextents (Nat.lt_of_not_le hlimit)).mono
      fun out v' h => ?_
    obtain ⟨physical, run, rfl, hrun, hstretch, hremembers'⟩ := h
    exact ⟨hremembers', hrun, hstretch⟩
  · next hextents =>
    have hmapped : g.mapped inode logical = g.indirect inode logical := by
      rw [Image.mapped, if_neg hlimit, if_neg hextents]
    rw [always_bind]
    refine (mapIndirect_exact hm inode logical).mono fun out v' h => ?_
    obtain ⟨hout, hextent⟩ := h
    have hremembers' : Remembers g v' := by
      unfold Remembers
      rw [hextent]
      exact hremembers
    rw [← hmapped] at hout
    cases out with
    | none => exact ⟨hremembers', hout.symm⟩
    | some physical => exact ⟨hremembers', hone hout.symm⟩

/-- **A volume that is mounted on an image**, and that remembers a right extent. -/
structure Reflects (d : Device) (g : Image) (v : Volume) : Prop where
  sound : Sound d v
  content : g.content = d.content
  layout : v.layout = g.layout
  remembers : Remembers g v

theorem Reflects.mounted (h : Reflects d g v) : Mounted d g v :=
  h.sound.mounted h.content h.layout

/-- What the map of a file says of a block and the blocks behind it. -/
def Image.Answers (g : Image) (inode : Inode) (logical : ℕ) : Option (ℕ × ℕ) → Prop
  | none => g.mapped inode logical = none
  | some (physical, run) => 0 < run ∧ g.Stretch inode logical run physical

/-- **Finding the block of a file.** The map need not be right: then nothing is known of the answer,
but all that is remembered of other files stays. -/
theorem mapBlock_reflects (hr : Reflects d g v) (hinode : g.inode inode.number = some inode)
    (logical : ℕ) :
    always d.exact anyRead (mapBlock inode logical)
      (fun out v' => Reflects d g v' ∧ Finds inode.number v v' ∧ Mapped v.layout out ∧
        (g.Good inode → g.Answers inode logical out)) v := by
  have hsound := always_exact (mapBlock_sound hr.sound inode logical)
  by_cases hgood : g.Good inode
  · refine (hsound.and (mapBlock_exact hr.mounted hr.remembers hinode hgood logical)).mono
      fun out v' h => ?_
    obtain ⟨⟨hs, hfinds, hmapped, -⟩, hremembers, hout⟩ := h
    refine ⟨⟨hs, hr.content, hfinds.layout.trans hr.layout, hremembers⟩, hfinds, hmapped,
      fun _ => ?_⟩
    match out, hout with
    | none, hout => exact hout
    | some (physical, run), hout => exact hout
  · refine hsound.mono fun out v' h => ?_
    obtain ⟨hs, hfinds, hmapped, -⟩ := h
    have hremembers : Remembers g v' := by
      rcases hfinds.extent with hsame | hnew
      · unfold Remembers
        rw [hsame]
        exact hr.remembers
      · intro inode' hinode' hgood'
        rw [hnew, hinode] at hinode'
        cases hinode'
        exact absurd hgood' hgood
    exact ⟨⟨hs, hr.content, hfinds.layout.trans hr.layout, hremembers⟩, hfinds, hmapped,
      fun h => absurd h hgood⟩

/-! ## The bytes of a file -/

theorem byte_of_mapped {x b : ℕ} (h : g.mapped inode (x / g.layout.blockBytes) = some b) :
    g.byte inode x = if b = 0 then 0
      else g.content (b * g.layout.blockBytes + x % g.layout.blockBytes) := by
  unfold Image.byte
  rw [h]
  cases b with
  | zero => rfl
  | succ b => rfl

theorem byte_of_stretch {position run j : ℕ} (hpos : 0 < g.layout.blockBytes)
    (h : g.Stretch inode (position / g.layout.blockBytes) run physical)
    (hj : position % g.layout.blockBytes + j < run * g.layout.blockBytes) :
    g.mapped inode ((position + j) / g.layout.blockBytes) ≠ none ∧
      g.byte inode (position + j) = if physical = 0 then 0
        else g.content (physical * g.layout.blockBytes + position % g.layout.blockBytes + j) := by
  have hsplit : position + j = position % g.layout.blockBytes + j +
      position / g.layout.blockBytes * g.layout.blockBytes := by
    have := Nat.div_add_mod' position g.layout.blockBytes
    omega
  have hindex : (position + j) / g.layout.blockBytes = position / g.layout.blockBytes +
      (position % g.layout.blockBytes + j) / g.layout.blockBytes := by
    rw [hsplit, Nat.add_mul_div_right _ _ hpos, Nat.add_comm]
  have hwithin : (position + j) % g.layout.blockBytes =
      (position % g.layout.blockBytes + j) % g.layout.blockBytes := by
    rw [hsplit, Nat.add_mul_mod_self_right]
  have hmapped := h _ ((Nat.div_lt_iff_lt_mul hpos).mpr hj)
  rw [← hindex] at hmapped
  refine ⟨by rw [hmapped]; exact Option.some_ne_none _, ?_⟩
  rw [byte_of_mapped hmapped, ahead]
  by_cases hphysical : physical = 0
  · rw [if_pos hphysical, if_pos rfl, if_pos hphysical]
  · rw [if_neg hphysical, if_neg (fun h => hphysical (Nat.eq_zero_of_add_eq_zero_right h)),
      if_neg hphysical, hwithin, Nat.add_mul, Nat.add_assoc, Nat.div_add_mod', Nat.add_assoc]

/-- Where the bytes before the first block without a right map end. -/
theorem upTo_eq (hdone : done ≤ length)
    (hbefore : ∀ k < done, g.mapped inode ((offset + k) / g.layout.blockBytes) ≠ none)
    (hend : done = length ∨ g.mapped inode ((offset + done) / g.layout.blockBytes) = none) :
    g.upTo inode offset length = done := by
  unfold Image.upTo
  rcases Nat.lt_or_eq_of_le hdone with hlt | rfl
  · rw [List.find?_range_eq_some.mpr ⟨?_, List.mem_range.mpr hlt, fun k hk => ?_⟩]
    · rfl
    · rw [hend.resolve_left (Nat.ne_of_lt hlt)]
      rfl
    · simpa [Option.isSome_iff_ne_none] using hbefore k hk
  · rw [List.find?_eq_none.mpr fun k hk => ?_]
    · rfl
    · simpa [Option.isNone_iff_eq_none] using hbefore k (List.mem_range.mp hk)

/-- What the loop of a read has read so far: the first `done` bytes, all in blocks with a right
map. -/
def SoFar (g : Image) (inode : Inode) (offset done : ℕ) (out : Bytes) : Prop :=
  out = ((g.byte inode).slice offset).trim done ∧
    ∀ k < done, g.mapped inode ((offset + k) / g.layout.blockBytes) ≠ none

theorem SoFar.next {run take : ℕ} {out data : Bytes} (hpos : 0 < g.layout.blockBytes)
    (h : SoFar g inode offset done out)
    (hstretch : g.Stretch inode ((offset + done) / g.layout.blockBytes) run physical)
    (htake : (offset + done) % g.layout.blockBytes + take ≤ run * g.layout.blockBytes)
    (hdata : ∀ j < take, data j = if physical = 0 then 0 else g.content
      (physical * g.layout.blockBytes + (offset + done) % g.layout.blockBytes + j)) :
    SoFar g inode offset (done + take) (out.splice done take data) := by
  have hbytes := fun j (hj : j < take) =>
    byte_of_stretch hpos hstretch (show (offset + done) % g.layout.blockBytes + j < _ by omega)
  refine ⟨?_, fun k hk => ?_⟩
  · rw [h.1]
    exact splice_range (fun j hj => (hdata j hj).trans (hbytes j hj).2.symm) rfl
  · rcases Nat.lt_or_ge k done with hlt | hge
    · exact h.2 k hlt
    · have := (hbytes (k - done) (by omega)).1
      rwa [show offset + done + (k - done) = offset + k by omega] at this

/-- The end of the loop: all bytes have been read, or the next one is in a block without a right
map. -/
theorem SoFar.readTo {out : Bytes} (h : SoFar g inode offset done out) (hdone : done ≤ length)
    (hend : done = length ∨ g.mapped inode ((offset + done) / g.layout.blockBytes) = none) :
    g.readTo inode offset length =
      (⟨done, if done = length then .none else .deviceError⟩, out) := by
  rw [Image.readTo, upTo_eq hdone h.2 hend, h.1]

theorem readInodeLoop_exact (hr : Reflects d g v) (hinode : g.inode inode.number = some inode)
    (offset length fuel done : ℕ) (out : Bytes) (hdone : done ≤ length)
    (hfuel : length ≤ done + fuel) (hsofar : g.Good inode → SoFar g inode offset done out) :
    always d.exact anyRead (readInodeLoop inode offset length fuel done out)
      (fun r v' => Reflects d g v' ∧ Finds inode.number v v' ∧
        (g.Good inode → r = g.readTo inode offset length)) v := by
  induction fuel generalizing v done out with
  | zero =>
    obtain rfl : done = length := by omega
    refine ⟨hr, Finds.touched _ v v.touched, fun hgood => ?_⟩
    rw [(hsofar hgood).readTo (Nat.le_refl done) (.inl rfl), if_pos rfl]
  | succ fuel ih =>
    rw [readInodeLoop]
    split
    · next hlt =>
      rw [always_bind, always_get]
      dsimp only
      rw [always_bind, hr.layout]
      refine (mapBlock_reflects hr hinode _).mono fun mapped v' h => ?_
      obtain ⟨hr', hfinds, hmapped, hanswers⟩ := h
      rcases mapped with _ | ⟨physical, run⟩
      · refine ⟨hr', hfinds, fun hgood => ?_⟩
        rw [(hsofar hgood).readTo hdone (.inr (hanswers hgood)), if_neg (Nat.ne_of_lt hlt)]
      · obtain ⟨hrun, hphysical⟩ := hmapped physical run rfl
        have hpos : 0 < g.layout.blockBytes := by
          rw [← hr.layout]
          exact hr.sound.layout.blockBytes_pos
        have hwithin := Nat.mod_lt (offset + done) hpos
        have hone := Nat.mul_le_mul_right g.layout.blockBytes hrun
        dsimp only
        -- what is taken ends with the run, and is not empty
        generalize htake : (if run * g.layout.blockBytes - (offset + done) % g.layout.blockBytes <
          length - done then run * g.layout.blockBytes - (offset + done) % g.layout.blockBytes
          else length - done) = take
        have hbound : 0 < take ∧ done + take ≤ length ∧
            (offset + done) % g.layout.blockBytes + take ≤ run * g.layout.blockBytes := by
          rw [← htake]
          split <;> omega
        obtain ⟨htakePos, hlength, hend⟩ := hbound
        have hagain : ∀ {data : Bytes}, (∀ j < take, data j = if physical = 0 then 0 else g.content
            (physical * g.layout.blockBytes + (offset + done) % g.layout.blockBytes + j)) →
            always d.exact anyRead
              (readInodeLoop inode offset length fuel (done + take) (out.splice done take data))
              (fun r v'' => Reflects d g v'' ∧ Finds inode.number v v'' ∧
                (g.Good inode → r = g.readTo inode offset length)) v' := by
          intro data hdata
          refine (ih hr' (done + take) (out.splice done take data) hlength (by omega)
            fun hgood => (hsofar hgood).next hpos (hanswers hgood).2 hend hdata).mono
              fun r v'' h => ?_
          exact ⟨h.1, hfinds.trans h.2.1, h.2.2⟩
        split
        · next hhole => exact hagain fun j _ => (if_pos hhole).symm
        · next hne =>
          have hinside : physical * g.layout.blockBytes +
              (offset + done) % g.layout.blockBytes + take ≤ v'.layout.volumeBytes := by
            have hvolume : (physical + run) * g.layout.blockBytes ≤ v'.layout.volumeBytes := by
              rw [hr'.layout, ← hr.layout]
              exact Nat.mul_le_mul_right _ (hphysical.resolve_left hne)
            rw [Nat.add_mul] at hvolume
            omega
          rw [always_bind]
          refine (fetch_exact hr'.mounted hinside).mono fun data v'' h => ?_
          obtain ⟨rfl, rfl⟩ := h
          refine hagain fun j hj => ?_
          rw [if_neg hne, Image.cut, Bytes.trim_apply hj, Bytes.slice_apply]
    · next hge =>
      obtain rfl : done = length := by omega
      refine ⟨hr, Finds.touched _ v v.touched, fun hgood => ?_⟩
      rw [(hsofar hgood).readTo (Nat.le_refl done) (.inl rfl), if_pos rfl]

/-- **Reading a file** whose map is right gives its content. -/
theorem readInode_exact (hr : Reflects d g v) (hinode : g.inode inode.number = some inode)
    (offset length : ℕ) :
    always d.exact anyRead (readInode inode offset length)
      (fun r v' => Reflects d g v' ∧ Finds inode.number v v' ∧
        (g.Good inode → r = g.readInode inode offset length)) v := by
  have hsound := always_exact (readInode_sound hr.sound
    (by rw [hr.layout]; exact inode_loadable hinode) offset length)
  have hread : always d.exact anyRead (readInode inode offset length)
      (fun r v' => Remembers g v' ∧ Finds inode.number v v' ∧
        (g.Good inode → r = g.readInode inode offset length)) v := by
    rw [readInode, Image.readInode]
    split
    · exact ⟨hr.remembers, Finds.touched _ v v.touched, fun _ => rfl⟩
    dsimp only
    split
    · rw [always_bind, touch, always_modify]
      exact ⟨hr.remembers, Finds.touched _ v _, fun _ => rfl⟩
    · exact (readInodeLoop_exact hr hinode offset _ _ 0 _ (Nat.zero_le _) (Nat.le_add_left _ _)
        fun _ => ⟨Bytes.trim_zero.symm, fun _ h => absurd h (Nat.not_lt_zero _)⟩).mono
          fun r v' h => ⟨h.1.remembers, h.2⟩
  refine (hsound.and hread).mono fun r v' h => ?_
  obtain ⟨⟨hs, -⟩, hremembers, hfinds, hout⟩ := h
  exact ⟨⟨hs, hr.content, hfinds.layout.trans hr.layout, hremembers⟩, hfinds, hout⟩

end ShirleysOS.Ext4
