import ShirleysOS.Vfs.Files

/-!
# Reading a whole file

`read_file` reads until a read gives nothing, fails, or the buffer is full, and then probes whether
there is more. A read that fails ends the loop as the end of the file does, and a probe that fails
counts as the end of the file: what was read until then is returned as the whole file. A first read
that fails leaves nothing to return.
-/

namespace ShirleysOS.Vfs

/-- Reads of a file give bytes of its content from the position on: as many as were asked for or
fewer, and none only at the end; or they fail. -/
def ReadsContent {W Fs : Type} (F : FileSystems W Fs) (filesystem : Fs) (entry : Entry)
    (content : List UInt8) : Prop :=
  ∀ w position length, (F.read w filesystem entry position length).1.ok = true →
    let transferred := (F.read w filesystem entry position length).1.transferred
    transferred ≤ length ∧ transferred ≤ content.length - position ∧
      (F.read w filesystem entry position length).2.1.take transferred =
        (content.drop position).take transferred ∧
      (transferred = 0 → length = 0 ∨ content.length ≤ position)

/-- The reads of `read_file`, in order, with the number of bytes read before: those of the loop from
`total` bytes on, and the probe when the buffer is full. -/
def readOutcomes {W Fs : Type} (F : FileSystems W Fs) (descriptor : ℤ) (capacity : ℕ) :
    ℕ → ℕ → State W Fs → List (ℕ × Storage.Result)
  | fuel, total, s =>
    if total < capacity then
      match fuel with
      | 0 => []
      | fuel + 1 =>
        match read F s descriptor (capacity - total) with
        | (result, _, s) =>
          (total, result) ::
            if !result.ok || result.transferred == 0 then []
            else readOutcomes F descriptor capacity fuel (total + result.transferred) s
    else [(total, (read F s descriptor 1).1)]

/-- A read that fails does so when nothing or everything has been read. -/
def FailsAtEnds (outcomes : List (ℕ × Storage.Result)) (length : ℕ) : Prop :=
  ∀ outcome ∈ outcomes, outcome.2.ok = false → outcome.1 = 0 ∨ outcome.1 = length

instance (outcomes : List (ℕ × Storage.Result)) (length : ℕ) :
    Decidable (FailsAtEnds outcomes length) := by
  unfold FailsAtEnds
  infer_instance

section Reading

variable {W Fs : Type} {F : FileSystems W Fs} {s s' : State W Fs} {node : Node Fs}
  {content buffer : List UInt8} {descriptor : ℤ} {capacity : ℕ}

/-- The descriptor reads the node, behind the bytes that are in the buffer; these are a beginning of
the file. -/
structure Holds (descriptor : ℤ) (node : Node Fs) (content buffer : List UInt8)
    (s : State W Fs) : Prop where
  file : ∃ index, fileOf s.files descriptor =
    some (index, ⟨node, buffer.length, OpenFlags.readOnly⟩)
  begins : buffer <+: content

/-- A read that succeeds gives the next bytes, none only at the end; one that fails gives none. -/
theorem Holds.read (h : Holds descriptor node content buffer s)
    (hreads : ReadsContent F node.filesystem node.toEntry content) (length : ℕ)
    {result : Storage.Result} {bytes : List UInt8}
    (hread : Vfs.read F s descriptor length = (result, bytes, s')) :
    (result.ok = false → Holds descriptor node content buffer s') ∧
    (result.ok = true →
      Holds descriptor node content (buffer ++ bytes.take result.transferred) s' ∧
      (bytes.take result.transferred).length = result.transferred ∧
      result.transferred ≤ length ∧
      (result.transferred = 0 → length = 0 ∨ buffer = content)) := by
  obtain ⟨⟨index, hfile⟩, hbegins⟩ := h
  have hgives := hreads s.world buffer.length length
  rcases hanswer : F.read s.world node.filesystem node.toEntry buffer.length length with
    ⟨answered, given, w⟩
  rw [hanswer] at hgives
  rw [Vfs.read, hfile] at hread
  simp only [OpenFlags.readOnly, Bool.not_true, Bool.false_eq_true, if_false, hanswer] at hread
  split at hread
  · rename_i hok
    obtain ⟨rfl, hrest⟩ := Prod.mk.inj hread
    obtain ⟨rfl, rfl⟩ := Prod.mk.inj hrest
    refine ⟨fun hfailed => absurd (hok.symm.trans hfailed) Bool.noConfusion, fun _ => ?_⟩
    obtain ⟨hlength, hleft, htake, hend⟩ := hgives hok
    have htaken : (given.take answered.transferred).length = answered.transferred := by
      rw [htake, List.length_take, List.length_drop, Nat.min_eq_left hleft]
    refine ⟨⟨⟨index, ?_⟩, ?_⟩, htaken, hlength, fun hzero => ?_⟩
    · rw [List.length_append, htaken]
      exact fileOf_update hfile _
    · -- what was read continues the beginning
      obtain ⟨rest, rfl⟩ := hbegins
      rw [htake, List.drop_left]
      exact (List.prefix_append_right_inj buffer).mpr <| List.take_prefix _ _
    · exact (hend hzero).imp_right fun hle =>
        hbegins.eq_of_length (Nat.le_antisymm hbegins.length_le hle)
  · rename_i hfailed
    obtain ⟨rfl, hrest⟩ := Prod.mk.inj hread
    obtain ⟨rfl, rfl⟩ := Prod.mk.inj hrest
    exact ⟨fun _ => ⟨⟨index, hfile⟩, hbegins⟩, fun hok => absurd hok hfailed⟩

/-- With a full buffer the only read is the probe. -/
theorem probe_spec (hfull : buffer.length = capacity) :
    (∀ outcome ∈ [(buffer.length, (Vfs.read F s descriptor 1).1)],
      outcome.2.ok = false → outcome.1 = buffer.length ∧
        (buffer.length = capacity → (Vfs.read F s descriptor 1).1.ok = false)) ∧
    ((∀ outcome ∈ [(buffer.length, (Vfs.read F s descriptor 1).1)], outcome.2.ok = true) →
      buffer = content ∨
        buffer.length = capacity ∧ (Vfs.read F s descriptor 1).1.ok = true) := by
  refine ⟨fun outcome houtcome hfailed => ?_, fun hall => ?_⟩
  · obtain rfl := List.mem_singleton.mp houtcome
    exact ⟨rfl, fun _ => hfailed⟩
  · exact Or.inr ⟨hfull, hall _ (List.mem_singleton_self _)⟩

/-- **The loop** ends with a beginning of the file. When no read fails it ends at the end of the
file, or with a full buffer; a read that fails is the last. -/
theorem readLoop_spec (hreads : ReadsContent F node.filesystem node.toEntry content) {fuel : ℕ}
    (h : Holds descriptor node content buffer s) (hroom : buffer.length ≤ capacity)
    (hfuel : capacity - buffer.length ≤ fuel) :
    ∃ filled after, readLoop F descriptor capacity fuel buffer s = some (filled, after) ∧
      Holds descriptor node content filled after ∧ filled.length ≤ capacity ∧
      (∀ outcome ∈ readOutcomes F descriptor capacity fuel buffer.length s,
        outcome.2.ok = false → outcome.1 = filled.length ∧
          (filled.length = capacity → (Vfs.read F after descriptor 1).1.ok = false)) ∧
      ((∀ outcome ∈ readOutcomes F descriptor capacity fuel buffer.length s,
        outcome.2.ok = true) → filled = content ∨
          filled.length = capacity ∧ (Vfs.read F after descriptor 1).1.ok = true) := by
  induction fuel generalizing buffer s with
  | zero =>
    have hfull : ¬buffer.length < capacity := by omega
    unfold readLoop readOutcomes
    rw [if_neg hfull, if_neg hfull]
    exact ⟨buffer, s, rfl, h, hroom, probe_spec (by omega)⟩
  | succ fuel ih =>
    unfold readLoop readOutcomes
    by_cases hfull : buffer.length < capacity
    · rw [if_pos hfull, if_pos hfull]
      dsimp only
      cases hread : Vfs.read F s descriptor (capacity - buffer.length) with
      | mk result answer =>
        obtain ⟨bytes, next⟩ := answer
        obtain ⟨hfailed, hsucceeded⟩ := h.read hreads _ hread
        dsimp only
        -- the loop goes on only after a read of some bytes
        cases hok : result.ok with
        | false =>
          rw [Bool.not_false, Bool.true_or, if_pos rfl, if_pos rfl]
          refine ⟨buffer, next, rfl, hfailed hok, hroom, fun outcome houtcome _ => ?_,
            fun hall => ?_⟩
          · obtain rfl := List.mem_singleton.mp houtcome
            exact ⟨rfl, fun heq => absurd heq (Nat.ne_of_lt hfull)⟩
          · exact absurd (hok.symm.trans (hall _ (List.mem_singleton_self _))) Bool.noConfusion
        | true =>
          obtain ⟨hnext, htaken, hlength, hend⟩ := hsucceeded hok
          rw [Bool.not_true, Bool.false_or]
          by_cases hzero : result.transferred = 0
          · rw [if_pos (beq_iff_eq.mpr hzero), if_pos (beq_iff_eq.mpr hzero)]
            rw [hzero, List.take_zero, List.append_nil] at hnext
            refine ⟨buffer, next, rfl, hnext, hroom, fun outcome houtcome hbad => ?_,
              fun _ => Or.inl ((hend hzero).resolve_left (by omega))⟩
            obtain rfl := List.mem_singleton.mp houtcome
            exact absurd (hok.symm.trans hbad) Bool.noConfusion
          · have hmore : ¬ (result.transferred == 0) = true := fun h => hzero (beq_iff_eq.mp h)
            rw [if_neg hmore, if_neg hmore]
            have htotal : (buffer ++ bytes.take result.transferred).length =
                buffer.length + result.transferred := by rw [List.length_append, htaken]
            obtain ⟨filled, after, hloop, hfilled, hcapacity, hlast, hwhole⟩ :=
              ih hnext (by omega) (by omega)
            rw [htotal] at hlast hwhole
            refine ⟨filled, after, hloop, hfilled, hcapacity, fun outcome houtcome hbad => ?_,
              fun hall => hwhole fun other hother => hall other (List.mem_cons_of_mem _ hother)⟩
            rcases List.mem_cons.mp houtcome with rfl | hrest
            · exact absurd (hok.symm.trans hbad) Bool.noConfusion
            · exact hlast outcome hrest hbad
    · rw [if_neg hfull, if_neg hfull]
      exact ⟨buffer, s, rfl, h, hroom, probe_spec (by omega)⟩

/-! ## The call -/

/-- What `open` for reading gives: the node of the path, or an error. -/
theorem openFile_readOnly (s : State W Fs) (path : List UInt8) {descriptor : ℤ}
    {opened : State W Fs}
    (hopen : openFile F s path OpenFlags.readOnly none = (descriptor, opened)) :
    descriptor < 0 ∨ ∃ node index, stat F s.world s.mounts path none = some node ∧
      fileOf opened.files descriptor = some (index, ⟨node, 0, OpenFlags.readOnly⟩) := by
  rw [openFile, openNode] at hopen
  cases hstat : stat F s.world s.mounts path none with
  | none =>
    rw [hstat] at hopen
    obtain ⟨rfl, -⟩ := Prod.mk.inj hopen
    exact Or.inl (by decide)
  | some node =>
    rw [hstat] at hopen
    simp only [OpenFlags.readOnly, Bool.false_and, Bool.false_eq_true, if_false] at hopen
    split at hopen
    · obtain ⟨rfl, -⟩ := Prod.mk.inj hopen
      exact Or.inl (by decide)
    · rw [assign] at hopen
      split at hopen
      · obtain ⟨rfl, -⟩ := Prod.mk.inj hopen
        exact Or.inl (by decide)
      · rename_i index hfree
        obtain ⟨rfl, rfl⟩ := Prod.mk.inj hopen
        refine Or.inr ⟨node, index, rfl, ?_⟩
        rw [fileOf, dif_pos ⟨Int.natCast_nonneg _, index.isLt⟩]
        simp only [Int.toNat_natCast, Fin.eta, Function.update_self, Option.map_some,
          OpenFlags.readOnly]

/-- What `read_file` returns when the file could be opened: the bytes of the loop, or nothing when
the probe finds more. -/
theorem readFile_opened {s opened : State W Fs} {path : List UInt8}
    (hcapacity : capacity ≠ 0)
    (hopen : openFile F s path OpenFlags.readOnly none = (descriptor, opened))
    (hdescriptor : ¬descriptor < 0) {filled : List UInt8} {after : State W Fs}
    (hloop : readLoop F descriptor capacity capacity [] opened = some (filled, after)) :
    ∃ closed, readFile F s path capacity =
      some (if filled.length = capacity ∧ (Vfs.read F after descriptor 1).1.ok = true ∧
        (Vfs.read F after descriptor 1).1.transferred ≠ 0 then 0 else filled.length,
        filled, closed) := by
  rw [readFile, if_neg hcapacity, hopen]
  dsimp only
  rw [if_neg hdescriptor, hloop]
  dsimp only
  by_cases hfull : filled.length = capacity
  · rw [if_pos hfull]
    cases hprobe : Vfs.read F after descriptor 1 with
    | mk more answer =>
      refine ⟨(close answer.2 descriptor).2, ?_⟩
      simp only [hfull, true_and, Bool.and_eq_true, bne_iff_ne]
  · rw [if_neg hfull, if_neg fun h => hfull h.1]
    exact ⟨_, rfl⟩

/-- A descriptor that is not open fails at the first read. -/
theorem readOutcomes_closed (hclosed : fileOf s.files descriptor = none) (length : ℕ) :
    FailsAtEnds (readOutcomes F descriptor capacity capacity 0 s) length := by
  intro outcome houtcome _
  left
  unfold readOutcomes at houtcome
  split at houtcome
  · cases capacity with
    | zero => exact absurd houtcome List.not_mem_nil
    | succ n =>
      rw [Vfs.read, hclosed] at houtcome
      exact congrArg Prod.fst (List.mem_singleton.mp houtcome)
  · exact congrArg Prod.fst (List.mem_singleton.mp houtcome)

/-- **A file is read whole or not at all**, exactly when the reads of the call that fail do so with
nothing or everything read: `read_file` ends, and what it returns is 0 or the length of the file,
with its content in the buffer. -/
theorem readFile_whole (contents : Fs → Entry → List UInt8)
    (hreads : ∀ filesystem entry, ReadsContent F filesystem entry (contents filesystem entry))
    (s : State W Fs) (path : List UInt8) (capacity : ℕ) :
    (∃ returned buffer after, readFile F s path capacity = some (returned, buffer, after) ∧
      (returned = 0 ∨ ∃ node, stat F s.world s.mounts path none = some node ∧
        returned = (contents node.filesystem node.toEntry).length ∧
        buffer = contents node.filesystem node.toEntry)) ↔
    ∀ node, stat F s.world s.mounts path none = some node →
      FailsAtEnds (readOutcomes F (openFile F s path OpenFlags.readOnly none).1 capacity
        capacity 0 (openFile F s path OpenFlags.readOnly none).2)
        (contents node.filesystem node.toEntry).length := by
  cases hopen : openFile F s path OpenFlags.readOnly none with
  | mk descriptor opened =>
    dsimp only
    by_cases hzero : capacity = 0
    · refine iff_of_true ⟨0, [], s, by rw [readFile, if_pos hzero], Or.inl rfl⟩
        fun node _ outcome houtcome _ => Or.inl ?_
      unfold readOutcomes at houtcome
      rw [if_neg (by omega)] at houtcome
      exact congrArg Prod.fst (List.mem_singleton.mp houtcome)
    by_cases hnegative : descriptor < 0
    · refine iff_of_true ⟨0, [], opened, ?_, Or.inl rfl⟩ fun node _ =>
        readOutcomes_closed (dif_neg fun h => absurd h.1 (not_le.mpr hnegative)) _
      rw [readFile, if_neg hzero, hopen]
      exact if_pos hnegative
    obtain ⟨node, index, hstat, hfile⟩ :=
      (openFile_readOnly s path hopen).resolve_left hnegative
    have hstart : Holds descriptor node (contents node.filesystem node.toEntry) [] opened :=
      ⟨⟨index, hfile⟩, List.nil_prefix⟩
    obtain ⟨filled, after, hloop, hfilled, -, hlast, hwhole⟩ :=
      readLoop_spec (hreads _ _) hstart (Nat.zero_le capacity) (Nat.sub_le _ _)
    obtain ⟨closed, hreturned⟩ := readFile_opened hzero hopen hnegative hloop
    rw [hreturned]
    constructor
    · rintro ⟨returned, buffer, after', heq, hgood⟩ node' hstat' outcome houtcome hbad
      obtain rfl : node = node' := Option.some.inj (hstat.symm.trans hstat')
      obtain ⟨htotal, hprobe⟩ := hlast outcome houtcome hbad
      -- the probe found nothing more, so what was read is returned
      rw [if_neg fun h => absurd (h.2.1.symm.trans (hprobe h.1)) (by decide)] at heq
      obtain ⟨rfl, -⟩ := Prod.mk.inj (Option.some.inj heq)
      rw [htotal]
      refine hgood.imp_right ?_
      rintro ⟨node', hnode', hlength, -⟩
      obtain rfl : node = node' := Option.some.inj (hstat.symm.trans hnode')
      exact hlength
    · intro hends
      refine ⟨_, filled, closed, rfl, ?_⟩
      split
      · exact Or.inl rfl
      rename_i hprobe
      have hcomplete : filled = contents node.filesystem node.toEntry →
          filled.length = 0 ∨ ∃ node, stat F s.world s.mounts path none = some node ∧
            filled.length = (contents node.filesystem node.toEntry).length ∧
            filled = contents node.filesystem node.toEntry :=
        fun h => Or.inr ⟨node, hstat, congrArg List.length h, h⟩
      by_cases hall : ∀ outcome ∈ readOutcomes F descriptor capacity capacity
          ([] : List UInt8).length opened, outcome.2.ok = true
      · rcases hwhole hall with hcontent | ⟨hfull, hok⟩
        · exact hcomplete hcontent
        · -- a probe that succeeds and gives nothing is at the end of the file
          have hnone : (Vfs.read F after descriptor 1).1.transferred = 0 := by
            by_contra hne
            exact hprobe ⟨hfull, hok, hne⟩
          obtain ⟨-, -, -, hend⟩ := (hfilled.read (hreads _ _) 1 rfl).2 hok
          exact hcomplete ((hend hnone).resolve_left Nat.one_ne_zero)
      · push Not at hall
        obtain ⟨outcome, houtcome, hbad⟩ := hall
        have hbad' : outcome.2.ok = false := by simpa using hbad
        obtain ⟨htotal, -⟩ := hlast outcome houtcome hbad'
        rcases hends node hstat outcome houtcome hbad' with hnothing | hlength
        · exact Or.inl (htotal.symm.trans hnothing)
        · exact hcomplete (hfilled.begins.eq_of_length (htotal.symm.trans hlength))

end Reading

/-! ## A file whose second read fails -/

/-- A file system with the one file `a` of the bytes 1 and 2, read one at a time; the state counts
the reads, and read `failing` fails. -/
def oneFile (failing : ℕ) : FileSystems ℕ Unit where
  root _ _ := some ⟨0, .directory, 0, []⟩
  lookup _ _ _ name := if name = [0x61] then some ⟨1, .file, 2, [0x61]⟩ else none
  list _ _ _ _ := none
  writable _ _ _ := false
  create w _ _ _ _ := (.error .unsupported, w)
  truncate w _ _ _ := (.unsupported, w)
  read w _ _ position length :=
    if w = failing then (⟨0, .deviceError⟩, [], w + 1)
    else
      let bytes := ([1, 2].drop position).take (min length 1)
      (⟨bytes.length, .none⟩, bytes, w + 1)

/-- The file system mounted as root, and no reads so far. -/
def oneFileMounted : State ℕ Unit := ⟨[⟨[slash], ()⟩], fun _ => none, 0⟩

theorem oneFile_readsContent (failing : ℕ) (filesystem : Unit) (entry : Entry) :
    ReadsContent (oneFile failing) filesystem entry [1, 2] := by
  intro w position length hok
  simp only [oneFile] at hok ⊢
  by_cases hfailing : w = failing
  · rw [if_pos hfailing] at hok
    cases hok
  · rw [if_neg hfailing]
    have hbytes : (([1, 2] : List UInt8).drop position).length = 2 - position := List.length_drop
    dsimp only
    rw [List.length_take, hbytes]
    refine ⟨by omega, by rw [List.length_cons, List.length_singleton]; omega, ?_, fun hnone => ?_⟩
    · rw [List.take_take]
      congr 1
      omega
    · rw [List.length_cons, List.length_singleton]
      omega

theorem readFile_whole_oneFile :
    ∃ returned buffer after,
      readFile (oneFile 10) oneFileMounted [slash, 0x61] 10 = some (returned, buffer, after) ∧
        (returned = 0 ∨ ∃ node,
          stat (oneFile 10) oneFileMounted.world oneFileMounted.mounts [slash, 0x61] none =
            some node ∧ returned = 2 ∧ buffer = [1, 2]) :=
  (readFile_whole (fun _ _ => [1, 2]) (oneFile_readsContent 10) oneFileMounted [slash, 0x61]
    10).mpr fun _ _ => by decide +kernel

/-- A read that fails after the first makes a part of the file the result. -/
theorem readFile_partial :
    (∀ filesystem entry, ReadsContent (oneFile 1) filesystem entry [1, 2]) ∧
      (readFile (oneFile 1) oneFileMounted [slash, 0x61] 10).map (fun r => (r.1, r.2.1)) =
        some (1, [1]) :=
  ⟨oneFile_readsContent 1, by decide +kernel⟩

end ShirleysOS.Vfs
