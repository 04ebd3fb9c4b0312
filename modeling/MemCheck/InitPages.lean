import MemCheck.Registration

/-!
# Freeing the Init Pages

`myfree_init_pages` gives the kernel's init range back page by page. For each page it calls
`myfree_pages` and only then `MemCheck_FreeAnySize`: the opposite order of every other free
wrapper. Between the two calls the allocator may already hand the page out, while the
shadow memory still records it.

The run is that of the registration protocol with one more party, the loop over the pages.
The entries recorded before the loop starts are foreign to the other wrappers, in the sense
of `Protocol`; the loop cuts one page after the other out of the entry around it
(`Foreign.cut`). A wrapper that registers a block while one of its pages is in the window
collides, and so does one whose block lies over an entry of size zero, which records no byte
but occupies its address. Nothing else goes wrong: `InitPages.Undisturbed` is exactly the
condition under which the next step succeeds.

## Main results

* `Shared.step`: one step of the loop or of a wrapper;
* `init_pages_undisturbed`: every interleaving.
-/

namespace MemCheck

/-! ### The loop beside the wrappers -/

/-- One page. -/
def page (p : Addr32) : MemoryAlloc := ⟨p, pageSize⟩

/-- The wrappers, and the loop of `myfree_init_pages`: its variable `addr`, whether
`myfree_pages` has run for it and `MemCheck_FreeAnySize` has not, and the pages the
allocator has got back from it. -/
structure InitPages where
  wrappers : Registrar
  addr : Addr32
  inWindow : Bool
  freed : List Addr32

/-- The loop before its first page, with the map `s`. -/
def InitPages.init (s : ShadowMemory) (begin : Addr32) : InitPages :=
  ⟨⟨s, [], [], []⟩, begin, false, []⟩

/-- A step of a wrapper, or one of the two calls in the loop's body. -/
inductive InitPagesAct where
  | wrapper (a : RegistrarAct)
  | myfreePages
  | memCheckFreeAnySize
  deriving DecidableEq, Repr

namespace InitPages

/-- The shadow call of a step, if it makes one. -/
def shadowCall (B : ShadowMemory.Balancer) (g : InitPages) : InitPagesAct → Option Call
  | .wrapper a => g.wrappers.shadowCall B a
  | .myfreePages => none
  | .memCheckFreeAnySize =>
      some ((Op.freeAnySizeMemory 0 g.addr pageSize).perform B g.wrappers.shadow)

/-- One step. `myfree_pages` ignores address zero. -/
def step (B : ShadowMemory.Balancer) (g : InitPages) : InitPagesAct → InitPages
  | .wrapper a => { g with wrappers := g.wrappers.step B a }
  | .myfreePages =>
      { g with
        inWindow := true
        freed := if g.addr ≠ 0 then g.addr :: g.freed else g.freed }
  | .memCheckFreeAnySize =>
      { g with
        wrappers := { g.wrappers with
          shadow := ((Op.freeAnySizeMemory 0 g.addr pageSize).perform B
            g.wrappers.shadow).shadow }
        addr := g.addr + pageSize
        inWindow := false }

/-- The wrappers' rules, the allocator handing out what was recorded at the start only
after the loop has given it back; and the order of the loop, which ends at `stop`. -/
def Allowed (s : ShadowMemory) (stop : Addr32) (g : InitPages) : InitPagesAct → Prop
  | .wrapper a => g.wrappers.Allowed a ∧ ∀ b ∈ a.acquired, ∀ q, b.entry.1.Covers q →
      s.Covered q → ∃ p ∈ g.freed, (page p).Covers q
  | .myfreePages => g.inWindow = false ∧ g.addr < stop
  | .memCheckFreeAnySize => g.inWindow = true

/-- No block is registered that shares a byte with a page in the window, or that lies over an
entry of size zero. -/
def Undisturbed (g : InitPages) : InitPagesAct → Prop
  | .wrapper (.notifyAlloc i) => ∀ c p, g.wrappers.jobs[i]? = some (.allocating c p) →
      (g.inWindow = true → ∀ q, (page g.addr).Covers q → ¬ (c.block p).entry.1.Covers q) ∧
        ∀ e ∈ g.wrappers.shadow.entries, e.1.size = 0 →
          ¬ e.1.extent.Meets (c.block p).entry.1.extent
  | _ => True

/-- One step, which rebalances in its own way. -/
def next (g : InitPages) (a : ShadowMemory.Balancer × InitPagesAct) : InitPages :=
  g.step a.1 a.2

end InitPages

/-- Among the entries there is one around the page with number `i` of a range. -/
def PageIn (F : Set Entry) (begin : Addr32) (i : ℕ) : Prop :=
  ∃ f ∈ F, f.1.address.toNat ≤ begin.toNat + i * pageSize.toNat ∧
    begin.toNat + (i + 1) * pageSize.toNat ≤ f.1.address.toNat + f.1.size.toNat

/-- The range of the loop is recorded: every page of it that starts below `stop` lies in an
entry. -/
def RangeIn (s : ShadowMemory) (begin stop : Addr32) : Prop :=
  ∀ i : ℕ, begin.toNat + i * pageSize.toNat < stop.toNat → PageIn {f | f ∈ s.entries} begin i

/-! ### The foreign entries -/

/-- What is left of the entries recorded at the start: nothing of the pages the loop is
done with, and an entry around each page from `addr` on. -/
structure Foreign (s : ShadowMemory) (begin stop addr : Addr32) (done : Set Addr32)
    (F : Set Entry) : Prop where
  bytes : ∀ f ∈ F, ∀ q, f.1.Covers q → s.Covered q ∧ ∀ p ∈ done, ¬ (page p).Covers q
  ahead : ∀ i : ℕ, addr.toNat ≤ begin.toNat + i * pageSize.toNat →
    begin.toNat + i * pageSize.toNat < stop.toNat → PageIn F begin i

namespace Foreign

variable {s : ShadowMemory} {f : Entry} {begin stop addr : Addr32} {done : Set Addr32}
  {F : Set Entry}

theorem mono (h : Foreign s begin stop addr done F) {addr' : Addr32} {done' : Set Addr32}
    (hle : addr.toNat ≤ addr'.toNat) (hsub : done' ⊆ done) :
    Foreign s begin stop addr' done' F :=
  ⟨fun f hf q hq => ⟨(h.bytes f hf q hq).1, fun p hp => (h.bytes f hf q hq).2 p (hsub hp)⟩,
    fun i hi => h.ahead i (hle.trans hi)⟩

section Cut

variable (h : Foreign s begin stop addr done F) (hf : f ∈ F) (hfit : f.1.Fits)
  (hapart : ∀ g ∈ F, g.1.extent.Meets f.1.extent → g = f)
  (hlo : f.1.address.toNat ≤ addr.toNat)
  (hhi : addr.toNat + pageSize.toNat ≤ f.1.address.toNat + f.1.size.toNat)

include h hf hfit hapart hlo hhi in
/-- Cutting the page at `addr` out of the piece around it. -/
theorem cut : Foreign s begin stop (addr + pageSize) (insert addr done)
    (F \ {f} ∪ {r | r ∈ ShadowMemory.remnants 0 f addr pageSize}) := by
  refine ⟨?_, fun i hi hstop => ?_⟩
  · rintro g (⟨hg, hne⟩ | hr) q hq
    · refine ⟨(h.bytes g hg q hq).1, ?_⟩
      rintro p (rfl | hp) hpq
      · -- the page lies in `f`, which shares no byte with the others
        have hfq : f.1.Covers q := ⟨hlo.trans hpq.1, hpq.2.trans_le hhi⟩
        exact hne (hapart g hg (Extent.meets_iff_exists.mpr ⟨q, hq.contains, hfq.contains⟩))
      · exact (h.bytes g hg q hq).2 p hp hpq
    · obtain ⟨hfq, hpage⟩ := ShadowMemory.covers_of_mem_remnants hfit hlo hhi hr hq
      refine ⟨(h.bytes f hf q hfq).1, ?_⟩
      rintro p (rfl | hp)
      · exact hpage
      · exact (h.bytes f hf q hfq).2 p hp
  · rw [(ShadowMemory.toNat_tail hfit hhi).1] at hi
    obtain ⟨k, hk, hlo', hhi'⟩ := h.ahead i (by omega) hstop
    by_cases hkf : k = f
    · -- the page lies in the tail of the piece that is cut
      subst hkf
      have hps : 0 < pageSize.toNat := by decide
      rw [Nat.succ_mul] at hhi'
      obtain ⟨r, hr, hr1, hr2⟩ := ShadowMemory.exists_tail 0 hfit hhi (by omega)
      exact ⟨r, Or.inr hr, by omega, by rw [Nat.succ_mul]; omega⟩
    · exact ⟨k, Or.inl ⟨hk, hkf⟩, hlo', hhi'⟩

end Cut

end Foreign

/-- Cutting a part out of a foreign entry leaves the protocol alone. -/
theorem Protocol.cut (B : ShadowMemory.Balancer) {F : Set Entry} {g : Registrar}
    (h : Protocol F g) {f : Entry} (hf : f ∈ F) {p n : Word32} (hp : p ≠ 0)
    (hn : 0 < n.toNat) (hlo : f.1.address.toNat ≤ p.toNat)
    (hhi : p.toNat + n.toNat ≤ f.1.address.toNat + f.1.size.toNat) :
    ((Op.freeAnySizeMemory 0 p n).perform B g.shadow).ret = 0 ∧
      Protocol (F \ {f} ∪ {r | r ∈ ShadowMemory.remnants 0 f p n})
        { g with shadow := ((Op.freeAnySizeMemory 0 p n).perform B g.shadow).shadow } := by
  have hfit := h.records.wellFormed.fits f ((h.records.mem_iff f).mpr (Or.inl hf))
  obtain ⟨hret, hrec⟩ := h.records.cut B (Or.inl hf) hp
    ⟨hlo, by rw [MemoryAlloc.extent_stop]; omega⟩ hhi 0
  have hmine : f ∉ blockEntries g.registered := by
    rintro ⟨b, hb, rfl⟩
    exact h.outside b hb _ hf (Extent.meets_self _)
  rw [Set.union_sdiff_distrib, Set.sdiff_singleton_eq_self hmine,
    Set.union_right_comm] at hrec
  refine ⟨hret, h.layout, h.matched, h.registered, ?_, hrec⟩
  rintro b hb k (⟨hk, -⟩ | hr) hm
  · exact h.outside b hb k hk hm
  · -- what is left of the entry met no block as a part of it
    have hwithin := ShadowMemory.within_of_mem_remnants 0 hfit hlo hhi hr
    exact h.outside b hb f hf (hm.symm.of_within hwithin).symm

/-! ### The invariant -/

/-- The pages the loop is done with. -/
def InitPages.done (g : InitPages) : Set Addr32 :=
  {p | p ∈ g.freed ∧ (g.inWindow = true → p ≠ g.addr)}

/-- The wrappers keep their protocol beside the foreign entries `F`, and of the memory
recorded at the start they have got only what the loop has freed. -/
structure Shared (s : ShadowMemory) (begin stop : Addr32) (F : Set Entry)
    (g : InitPages) : Prop where
  protocol : Protocol F g.wrappers
  leftover : Foreign s begin stop g.addr g.done F
  handedOut : ∀ b ∈ g.wrappers.outstanding, ∀ q, b.entry.1.Covers q → s.Covered q →
    ∃ p ∈ g.freed, (page p).Covers q
  freed : ∀ p ∈ g.freed, p ≠ 0
  place : ∃ i : ℕ, g.addr.toNat = begin.toNat + i * pageSize.toNat
  window : g.inWindow = true → g.addr < stop

namespace Shared

variable {s : ShadowMemory} {begin stop : Addr32} {F : Set Entry} {g : InitPages}
  (B : ShadowMemory.Balancer)

/-- An undisturbed registration is clear of the foreign entries. -/
theorem clear (h : Shared s begin stop F g) {a : RegistrarAct}
    (hu : g.Undisturbed (.wrapper a)) : g.wrappers.Clear F a := by
  cases a with
  | notifyAlloc i =>
      intro c p hi f hf hm
      have hb := Protocol.mem_outstanding hi List.mem_cons_self
      obtain ⟨hwindow, hempty⟩ := hu c p hi
      obtain ⟨q, hqf, hqb⟩ := Extent.meets_iff_exists.mp hm
      have hfq : f.1.Covers q := MemoryAlloc.covers_of_contains
        (fun h0 => hempty f ((h.protocol.records.mem_iff f).mpr (Or.inl hf)) h0 hm) hqf
      have hbq := MemoryAlloc.covers_of_contains (h.protocol.layout.size _ hb) hqb
      obtain ⟨hcov, hdone⟩ := h.leftover.bytes f hf q hfq
      obtain ⟨r, hr, hrq⟩ := h.handedOut _ hb q hbq hcov
      exact hdone r ⟨hr, fun hw heq => hwindow hw q (heq ▸ hrq) hbq⟩ hrq
  | _ => trivial

/-- A step of a wrapper. -/
theorem step_wrapper (h : Shared s begin stop F g) {a : RegistrarAct}
    (ha : g.Allowed s stop (.wrapper a)) (hu : g.Undisturbed (.wrapper a)) :
    (∀ call, g.shadowCall B (.wrapper a) = some call → call.ret = 0) ∧
      Shared s begin stop F (g.step B (.wrapper a)) := by
  obtain ⟨hret, hprot⟩ := h.protocol.step B ha.1 (h.clear hu)
  refine ⟨hret, hprot, h.leftover, fun b hb => ?_, h.freed, h.place, h.window⟩
  obtain ⟨gone, hperm⟩ := Registrar.outstanding_step B ha.1
  rcases List.mem_append.mp (hperm.mem_iff.mp (List.mem_append_right gone hb)) with hb | hb
  · exact ha.2 b hb
  · exact h.handedOut b hb

/-- The loop gives a page back: the window opens. -/
theorem step_myfreePages (h : Shared s begin stop F g)
    (ha : g.Allowed s stop .myfreePages) :
    Shared s begin stop F (g.step B .myfreePages) := by
  have hsub : ∀ p ∈ g.freed, p ∈ (g.step B .myfreePages).freed := by
    intro p hp
    simp only [InitPages.step]
    split_ifs
    · exact List.mem_cons_of_mem _ hp
    · exact hp
  have hmem : ∀ p ∈ (g.step B .myfreePages).freed,
      (p = g.addr ∧ g.addr ≠ 0) ∨ p ∈ g.freed := by
    intro p hp
    simp only [InitPages.step] at hp
    split_ifs at hp with h0
    · rcases List.mem_cons.mp hp with rfl | hp
      · exact Or.inl ⟨rfl, h0⟩
      · exact Or.inr hp
    · exact Or.inr hp
  refine ⟨h.protocol, h.leftover.mono le_rfl ?_, fun b hb q hq hcov => ?_, fun p hp => ?_, h.place,
    fun _ => ha.2⟩
  · rintro p ⟨hp, hne⟩
    refine ⟨(hmem p hp).resolve_left fun heq => hne rfl heq.1, fun hw => ?_⟩
    exact absurd (ha.1.symm.trans hw) (by decide)
  · obtain ⟨p, hp, hpq⟩ := h.handedOut b hb q hq hcov
    exact ⟨p, hsub p hp, hpq⟩
  · rcases hmem p hp with ⟨rfl, h0⟩ | hp
    · exact h0
    · exact h.freed p hp

/-- The page in the window is recorded. -/
theorem exists_piece (h : Shared s begin stop F g) (hw : g.inWindow = true) :
    ∃ f ∈ F, f.1.Fits ∧ f.1.address.toNat ≤ g.addr.toNat ∧
      g.addr.toNat + pageSize.toNat ≤ f.1.address.toNat + f.1.size.toNat := by
  obtain ⟨i, hi⟩ := h.place
  have hlt := UInt32.lt_iff_toNat_lt.mp (h.window hw)
  obtain ⟨f, hf, hlo, hhi⟩ := h.leftover.ahead i hi.le (hi ▸ hlt)
  rw [Nat.succ_mul, ← Nat.add_assoc, ← hi] at hhi
  exact ⟨f, hf, h.protocol.records.wellFormed.fits f
    ((h.protocol.records.mem_iff f).mpr (Or.inl hf)), hi ▸ hlo, hhi⟩

/-- The next page is the next one of the range. -/
theorem place_next (h : Shared s begin stop F g)
    (hw : g.inWindow = true) :
    ∃ i : ℕ, (g.addr + pageSize).toNat = begin.toNat + i * pageSize.toNat := by
  obtain ⟨f, -, hfit, -, hhi⟩ := h.exists_piece hw
  obtain ⟨i, hi⟩ := h.place
  refine ⟨i + 1, ?_⟩
  rw [(ShadowMemory.toNat_tail hfit hhi).1, hi, Nat.succ_mul, Nat.add_assoc]

/-- Both calls of the body ignore address zero. -/
theorem step_memCheckFreeAnySize_null (h : Shared s begin stop F g)
    (hw : g.inWindow = true) (h0 : g.addr = 0) :
    (∀ call, g.shadowCall B .memCheckFreeAnySize = some call → call.ret = 0) ∧
      Shared s begin stop F (g.step B .memCheckFreeAnySize) := by
  have hcall : (Op.freeAnySizeMemory 0 g.addr pageSize).perform B g.wrappers.shadow =
      ⟨0, g.wrappers.shadow, [], []⟩ := by
    rw [h0]
    exact ShadowMemory.freeAnySizeMemory_null B 0
  have hdone : (g.step B .memCheckFreeAnySize).done ⊆ g.done := fun p hp =>
    ⟨hp.1, fun _ heq => h.freed p hp.1 (heq.trans h0)⟩
  have hle : g.addr.toNat ≤ (g.addr + pageSize).toNat := by
    rw [h0]
    exact Nat.zero_le _
  simp only [InitPages.shadowCall, InitPages.step, hcall, Option.some.injEq]
  exact ⟨fun call heq => heq ▸ rfl, h.protocol, h.leftover.mono hle hdone, h.handedOut,
    h.freed, h.place_next hw, nofun⟩

/-- The loop tells the checker: the window closes. -/
theorem step_memCheckFreeAnySize (h : Shared s begin stop F g)
    (hw : g.inWindow = true) :
    (∀ call, g.shadowCall B .memCheckFreeAnySize = some call → call.ret = 0) ∧
      ∃ F', Shared s begin stop F' (g.step B .memCheckFreeAnySize) := by
  by_cases h0 : g.addr = 0
  · obtain ⟨hret, hshared⟩ := h.step_memCheckFreeAnySize_null B hw h0
    exact ⟨hret, F, hshared⟩
  · obtain ⟨f, hf, hfit, hlo, hhi⟩ := h.exists_piece hw
    obtain ⟨hret, hprot⟩ := h.protocol.cut B hf h0 (by decide) hlo hhi
    have hapart : ∀ k ∈ F, k.1.extent.Meets f.1.extent → k = f := fun k hk hm =>
      h.protocol.records.eq_of_meets (Or.inl hk) (Or.inl hf) hm
    have hdone : (g.step B .memCheckFreeAnySize).done ⊆ insert g.addr g.done := by
      intro p hp
      by_cases heq : p = g.addr
      · exact Or.inl heq
      · exact Or.inr ⟨hp.1, fun _ => heq⟩
    exact ⟨fun call heq => Option.some.inj heq ▸ hret, _, hprot,
      (h.leftover.cut hf hfit hapart hlo hhi).mono le_rfl hdone, h.handedOut, h.freed,
      h.place_next hw, nofun⟩

/-- **One step** of the loop or of a wrapper, undisturbed. -/
theorem step (h : Shared s begin stop F g) {a : InitPagesAct}
    (ha : g.Allowed s stop a) (hu : g.Undisturbed a) :
    (∀ call, g.shadowCall B a = some call → call.ret = 0) ∧
      ∃ F', Shared s begin stop F' (g.step B a) := by
  cases a with
  | wrapper a =>
      obtain ⟨hret, hshared⟩ := h.step_wrapper B ha hu
      exact ⟨hret, F, hshared⟩
  | myfreePages =>
      exact ⟨fun call hcall => (by cases hcall), F, h.step_myfreePages B ha⟩
  | memCheckFreeAnySize => exact h.step_memCheckFreeAnySize B ha

/-- A disturbed registration collides with the page in the window or an empty entry. -/
theorem undisturbed_of_ret (h : Shared s begin stop F g) {a : InitPagesAct}
    (hret : ∀ call, g.shadowCall B a = some call → call.ret = 0) :
    g.Undisturbed a := by
  match a with
  | .wrapper (.notifyAlloc i) =>
      intro c p hi
      have hb := Protocol.mem_outstanding hi List.mem_cons_self
      have hroom := (h.protocol.records.newMemoryAlloc_ret B (h.protocol.layout.fits _ hb)).mp
        (hret _ (h.protocol.shadowCall_notifyAlloc B hi))
      refine ⟨fun hw q hq hbq => ?_, fun e he _ => ?_⟩
      · obtain ⟨f, hf, -, hlo, hhi⟩ := h.exists_piece hw
        have hfq : f.1.Covers q := ⟨hlo.trans hq.1, hq.2.trans_le hhi⟩
        exact hroom.free f (Or.inl hf)
          (Extent.meets_iff_exists.mpr ⟨q, hfq.contains, hbq.contains⟩)
      · exact hroom.free e ((h.protocol.records.mem_iff e).mp he)
  | .wrapper (.acquire _ _) | .wrapper (.startFree _ _) | .wrapper (.notifyFree _)
  | .wrapper (.giveBack _) | .myfreePages | .memCheckFreeAnySize => trivial

/-- At the start every entry is foreign. -/
theorem init (hs : s.WellFormed) (hrange : RangeIn s begin stop) :
    Shared s begin stop {f | f ∈ s.entries} (InitPages.init s begin) := by
  refine ⟨⟨⟨?_, ?_, ?_, List.Pairwise.nil⟩, ?_, List.Perm.nil, ?_, hs, fun f => ?_⟩,
    ⟨fun f hf q hq => ⟨⟨f, hf, hq⟩, ?_⟩, fun i _ hi => hrange i hi⟩, ?_, ?_,
    ⟨0, by simp [InitPages.init]⟩, fun hw => (by cases hw)⟩
  case refine_6 => simp [InitPages.init, blockEntries]
  all_goals simp [InitPages.init, InitPages.done, Registrar.outstanding, Registrar.gather]

end Shared

/-! ### Every interleaving -/

/-- **Freeing the init pages beside the wrappers.** From a reached map whose entries end below
`2 ^ 32`, each page of the range lying in one of them: in every interleaving in which no block
is registered that shares a byte with a page in the window or lies over an entry of size zero,
every shadow call succeeds and every registered block is recorded. In the states of such a run
the next step's call fails exactly when it registers such a block. -/
theorem init_pages_undisturbed {s : ShadowMemory} {begin stop : Addr32}
    (hreach : s.Reachable)
    (hfits : ∀ f ∈ s.entries, f.1.address.toNat + f.1.size.toNat < 2 ^ 32)
    (hrange : RangeIn s begin stop) {acts : List (ShadowMemory.Balancer × InitPagesAct)}
    (hrun : Run.Along InitPages.next (fun g a => g.Allowed s stop a.2 ∧ g.Undisturbed a.2)
      (InitPages.init s begin) acts) :
    (∀ pre a post, acts = pre ++ a :: post → ∀ call,
      (Run.final InitPages.next (InitPages.init s begin) pre).shadowCall a.1 a.2 =
        some call → call.ret = 0) ∧
    (∀ pre post, acts = pre ++ post → ∀ b ∈
      (Run.final InitPages.next (InitPages.init s begin) pre).wrappers.registered,
        b.entry ∈ (Run.final InitPages.next
          (InitPages.init s begin) pre).wrappers.shadow.entries) ∧
    ∀ pre post, acts = pre ++ post → ∀ B a,
      (Run.final InitPages.next (InitPages.init s begin) pre).Allowed s stop a →
      ((∀ call, (Run.final InitPages.next (InitPages.init s begin) pre).shadowCall B a =
          some call → call.ret = 0) ↔
        (Run.final InitPages.next (InitPages.init s begin) pre).Undisturbed a) := by
  have hinit : ∃ F, Shared s begin stop F (InitPages.init s begin) :=
    ⟨_, Shared.init (hreach.wellFormed_of_fits hfits) hrange⟩
  have hstep : ∀ g (a : ShadowMemory.Balancer × InitPagesAct), (∃ F, Shared s begin stop F g) →
      g.Allowed s stop a.2 ∧ g.Undisturbed a.2 → ∃ F, Shared s begin stop F (g.next a) := by
    rintro g a ⟨F, h⟩ ⟨ha, hu⟩
    exact (h.step a.1 ha hu).2
  refine ⟨fun pre a post heq => ?_, fun pre post heq b hb => ?_,
    fun pre post heq B a ha => ?_⟩
  · subst heq
    obtain ⟨⟨F, h⟩, ha, hu⟩ := hrun.at hstep hinit
    exact (h.step a.1 ha hu).1
  · subst heq
    obtain ⟨F, h⟩ := (Run.along_append.mp hrun).1.final hstep hinit
    exact (h.protocol.records.mem_iff _).mpr (Or.inr ⟨b, hb, rfl⟩)
  · subst heq
    obtain ⟨F, h⟩ := (Run.along_append.mp hrun).1.final hstep hinit
    exact ⟨h.undisturbed_of_ret B, fun hu => (h.step B ha hu).1⟩

/-- A map that records two init pages, each on its own, and an empty entry in front of them. -/
def twoPages : ShadowMemory :=
  ShadowMemory.run ShadowMemory.empty (ShadowMemory.plain [.newMemoryAlloc 0 0xc0400000 0x1000,
    .newMemoryAlloc 0 0xc0401000 0x1000, .newMemoryAlloc 0 0xc03ff000 0])

/-- The first page is handed out again within the window and registered after it, while the
second one is in the window. -/
theorem init_pages_undisturbed_recycled :
    (Block.entry ⟨0xc0400000, 4096, .freePages⟩) ∈
      (Run.final InitPages.next (InitPages.init twoPages 0xc0400000)
        ([.myfreePages, .wrapper (.acquire (.allocPagesNode 0) 0xc0400000),
          .memCheckFreeAnySize, .myfreePages, .wrapper (.notifyAlloc 0),
          .memCheckFreeAnySize].map (Prod.mk .id))).wrappers.shadow.entries := by
  have hrange : RangeIn twoPages 0xc0400000 0xc0402000 := by
    intro i hi
    have hi' : 3225419776 + i * 4096 < 3225427968 := hi
    obtain rfl | rfl : i = 0 ∨ i = 1 := by omega
    · exact ⟨(⟨0xc0400000, 0x1000⟩, ⟨0⟩), by decide, by decide, by decide⟩
    · exact ⟨(⟨0xc0401000, 0x1000⟩, ⟨0⟩), by decide, by decide, by decide⟩
  have hrun : Run.Along InitPages.next
      (fun g a => g.Allowed twoPages 0xc0402000 a.2 ∧ g.Undisturbed a.2)
      (InitPages.init twoPages 0xc0400000)
      ([.myfreePages, .wrapper (.acquire (.allocPagesNode 0) 0xc0400000),
        .memCheckFreeAnySize, .myfreePages, .wrapper (.notifyAlloc 0),
        .memCheckFreeAnySize].map (Prod.mk SearchTree.Balancer.id)) := by
    refine ⟨⟨⟨rfl, by decide⟩, trivial⟩,
      ⟨⟨⟨by decide, by decide, by decide, fun b hb => absurd hb List.not_mem_nil⟩,
        fun b hb q hq _ => ?_⟩, trivial⟩, ⟨rfl, trivial⟩, ⟨⟨rfl, by decide⟩, trivial⟩,
      ⟨⟨⟨_, _, rfl⟩, fun b hb => absurd hb List.not_mem_nil⟩, fun c p hi => ?_⟩,
      ⟨rfl, trivial⟩, trivial⟩
    · rw [List.mem_singleton.mp hb] at hq
      exact ⟨0xc0400000, List.mem_cons_self, hq⟩
    · cases hi
      refine ⟨fun _ q h1 h2 => ?_, by decide⟩
      exact absurd (h1.1.trans_lt h2.2) (by decide)
  exact (init_pages_undisturbed ⟨_, rfl⟩ (by decide) hrange hrun).2.1 _ []
    (List.append_nil _).symm _ List.mem_cons_self

/-- A map that records one init page. -/
def onePage : ShadowMemory :=
  ShadowMemory.run ShadowMemory.empty
    (ShadowMemory.plain [.newMemoryAlloc 0 0xc0400000 0x1000])

/-- The page is registered by its new owner within the window: the registration collides,
and the loop then removes what is recorded, while the owner still has the page. -/
theorem init_page_registration_lost :
    Run.Along InitPages.next (fun g a => g.Allowed onePage 0xc0401000 a.2)
        (InitPages.init onePage 0xc0400000)
        ([.myfreePages, .wrapper (.acquire (.allocPagesNode 0) 0xc0400000),
          .wrapper (.notifyAlloc 0), .memCheckFreeAnySize].map (Prod.mk .id)) ∧
      ((Run.final InitPages.next (InitPages.init onePage 0xc0400000)
        ([.myfreePages, .wrapper (.acquire (.allocPagesNode 0) 0xc0400000)].map
          (Prod.mk .id))).shadowCall SearchTree.Balancer.id
            (.wrapper (.notifyAlloc 0))).map Call.ret = some 1 ∧
      (Run.final InitPages.next (InitPages.init onePage 0xc0400000)
        ([.myfreePages, .wrapper (.acquire (.allocPagesNode 0) 0xc0400000),
          .wrapper (.notifyAlloc 0), .memCheckFreeAnySize].map
            (Prod.mk .id))).wrappers.registered = [⟨0xc0400000, 4096, .freePages⟩] ∧
      (Run.final InitPages.next (InitPages.init onePage 0xc0400000)
        ([.myfreePages, .wrapper (.acquire (.allocPagesNode 0) 0xc0400000),
          .wrapper (.notifyAlloc 0), .memCheckFreeAnySize].map
            (Prod.mk .id))).wrappers.shadow.entries = [] := by
  refine ⟨⟨⟨rfl, by decide⟩,
    ⟨⟨by decide, by decide, by decide, fun b hb => absurd hb List.not_mem_nil⟩,
      fun b hb q hq _ => ?_⟩,
    ⟨⟨_, _, rfl⟩, fun b hb => absurd hb List.not_mem_nil⟩, rfl, trivial⟩, rfl, rfl, by decide⟩
  rw [List.mem_singleton.mp hb] at hq
  exact ⟨0xc0400000, List.mem_cons_self, hq⟩

end MemCheck
