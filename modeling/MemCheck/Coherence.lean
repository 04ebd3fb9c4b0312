import MemCheck.CacheInvariant
import MemCheck.GuestLoads

/-!
# Code and Memory

A block must not outlive the code it was translated from. The emulator therefore watches the pages
that hold translated code: `CODE_DIRTY_FLAG` of such a page is clear, so that no entry of
`tlb_table` lets the guest write to it without further ado, and every write to it first looks for
blocks that it hits.

`Coherent` says that this works: the bytes that each live block was translated from are the bytes
that memory holds where the block lies. Only the MMU of the guest may have changed some of them,
which notes in the page tables what is accessed, and is not watched.

## Main results

* `Coherent.calm`: loads keep the invariant;
* `Coherent.put`: so does invalidating the blocks that a write hits;
* `Coherent.write`: and then the write itself.
-/

namespace MemCheck

/-! ### Where the code of a block lies -/

/-- Where a byte of the code of a block lies. -/
def TbEntry.byteAddr (e : TbEntry) (k : ℕ) : Addr32 :=
  let o := (pageOffset e.pc).toNat + k
  if o < 4096 then e.pageAddr .zero + UInt32.ofNat o else e.pageAddr .one + UInt32.ofNat (o - 4096)

section Bytes

variable {e : TbEntry} {k len : ℕ} {a : Addr32}

/-- Each byte is covered by a part of the block. -/
theorem TbEntry.Wf.covers (h : e.Wf) (hfirst : e.pageAddr .zero ≠ noPage)
    (hk : k < e.size.toNat) :
    ∃ n o, e.pageAddr n ≠ noPage ∧ o < 4096 ∧ e.Covers n o ∧
      e.byteAddr k = e.pageAddr n + UInt32.ofNat o := by
  have htsize : targetPageSize.toNat = 4096 := rfl
  have hle := h.size_le
  have hoff := Nat.mod_lt e.pc.toNat (show 4096 > 0 by omega)
  have hsecond := h.second
  rw [toNat_pageOffset] at hsecond
  simp only [TbEntry.byteAddr, toNat_pageOffset]
  by_cases ho : e.pc.toNat % 4096 + k < 4096
  · refine ⟨.zero, e.pc.toNat % 4096 + k, hfirst, ho, ?_, if_pos ho⟩
    simp only [TbEntry.Covers, TbEntry.pageRange, toNat_pageOffset, htsize]
    split_ifs <;> omega
  · refine ⟨.one, e.pc.toNat % 4096 + k - 4096, hsecond (by omega), by omega, ?_, if_neg ho⟩
    have hsum : (e.pc + e.size.toUInt32).toNat = (e.pc.toNat + e.size.toNat) % 2 ^ 32 := by
      rw [UInt32.toNat_add, UInt16.toNat_toUInt32]
    simp only [TbEntry.Covers, TbEntry.pageRange, toNat_pageOffset, hsum]
    omega

/-- A block that has a byte in a range of memory is hit by a write to the range. -/
theorem TbEntry.Wf.hit_of_byteAddr (h : e.Wf) (hfirst : e.pageAddr .zero ≠ noPage)
    (hk : k < e.size.toNat) (hend : (pageOffset a).toNat + len ≤ 4096)
    (hin : (e.byteAddr k - a).toNat < len) :
    ∃ n, e.OnPage n (pageIndex a) ∧ e.Hit n a (a + UInt32.ofNat len) := by
  obtain ⟨n, o, hn, ho, hcov, hbyte⟩ := h.covers hfirst hk
  have hbase := congrArg UInt32.toNat (h.aligned n hn)
  have hinside := h.inside n hn
  have ha := a.toNat_lt
  have hzero : (0 : UInt32).toNat = 0 := rfl
  rw [toNat_pageOffset, hzero] at hbase
  -- neither the block nor the range wraps around
  have hx : (e.byteAddr k).toNat = (e.pageAddr n).toNat + o := by
    rw [hbyte, UInt32.toNat_add, UInt32.toNat_ofNat']
    omega
  have hend' := hend
  rw [toNat_pageOffset] at hend'
  rw [UInt32.toNat_sub, hx] at hin
  have hindex : pageIndex (e.pageAddr n) = pageIndex a := by
    refine UInt32.toNat_inj.mp ?_
    rw [toNat_pageIndex, toNat_pageIndex]
    omega
  refine ⟨n, ⟨hn, hindex⟩, (h.hit_iff hn hindex (by omega) hend).mpr ⟨o, ?_, ?_, hcov⟩⟩
  · rw [toNat_pageOffset]
    omega
  · rw [toNat_pageOffset]
    omega

end Bytes

/-! ### The invariant -/

/-- **The code of the live blocks is in memory.** The pages it lies on are watched, and only
`cpu_single_env` executes a block. -/
structure Coherent (hw : Board) (m : Qemu) (L : CacheLayout) : Prop where
  cache : CacheOk m.cache L
  tlb : m.TlbOk hw
  watched : ∀ i, L.page i ≠ [] → m.dirty i &&& codeDirtyFlag = 0
  length : ∀ tb ∈ L.live, (m.source tb).length = (m.cache.tbs tb).size.toNat
  source : ∀ tb ∈ L.live, ∀ k b, (m.source tb)[k]? = some b →
    m.Holds ((m.cache.tbs tb).byteAddr k) b
  current : ∀ c tb, (m.cpus c).env.currentTb = some tb → tb ∈ L.known ∧ m.single = some c

namespace Coherent

variable {hw : Board} {m m' : Qemu} {L : CacheLayout}

/-- A page that is not watched holds no code. -/
theorem page_eq_nil (h : Coherent hw m L) {i : Word32} (hi : m.dirty i &&& codeDirtyFlag ≠ 0) :
    L.page i = [] := by
  by_contra hne
  exact hi (h.watched i hne)

/-- **Loads** keep the invariant. -/
theorem calm (h : Coherent hw m L) {S : Set (ℕ × MmuIdx × Word32)} (hcalm : Calm hw S m m') :
    Coherent hw m' L := by
  refine ⟨?_, hcalm.tlbOk h.tlb, ?_, ?_, ?_, ?_⟩
  · rw [hcalm.cache]
    exact h.cache
  · rw [hcalm.dirty]
    exact h.watched
  · rw [hcalm.cache, hcalm.source]
    exact h.length
  · rw [hcalm.cache, hcalm.source]
    exact fun tb htb k b hb => hcalm.holds (h.source tb htb k b hb)
  · intro c tb htb
    rw [hcalm.env] at htb
    rw [hcalm.single]
    exact h.current c tb htb

/-- **A write** to a part of a page that holds no code keeps it. -/
theorem write (h : Coherent hw m L) {a : Addr32} {bs : List UInt8}
    (hend : (pageOffset a).toNat + bs.length ≤ 4096)
    (hclear : ∀ tb ∈ L.live,
      tb ∉ Struck m.cache a (a + UInt32.ofNat bs.length) (L.page (pageIndex a))) :
    Coherent hw { m with ram := Bytes.writeBytes m.ram a bs } L := by
  refine ⟨h.cache, h.tlb, h.watched, h.length, fun tb htb k b hb => ?_, h.current⟩
  rcases h.source tb htb k b hb with hram | hun
  · refine .inl ((Bytes.writeBytes_apply (by omega)).trans (Eq.trans ?_ hram))
    by_cases hin : ((m.cache.tbs tb).byteAddr k - a).toNat < bs.length
    · have hk : k < (m.cache.tbs tb).size.toNat := by
        rw [← h.length tb htb]
        exact (List.getElem?_eq_some_iff.mp hb).1
      obtain ⟨n, hon, hhit⟩ :=
        (h.cache.wf tb htb).hit_of_byteAddr (h.cache.shape.first tb htb) hk hend hin
      exact absurd ⟨n, (h.cache.shape.page.mem _ tb n).mpr ⟨htb, hon⟩, hhit⟩ (hclear tb htb)
    · exact congrArg (Option.getD · _) (List.getElem?_eq_none (not_lt.mp hin))
  · exact .inr hun

/-- A page without code may be written. -/
theorem write_of_nil (h : Coherent hw m L) {a : Addr32} {bs : List UInt8}
    (hend : (pageOffset a).toNat + bs.length ≤ 4096) (hnil : L.page (pageIndex a) = []) :
    Coherent hw { m with ram := Bytes.writeBytes m.ram a bs } L := by
  refine h.write hend fun tb _ => ?_
  rw [hnil, struck_nil]
  exact Set.notMem_empty tb

section Put

variable {start stop : Addr32} {isCpuWriteAccess : Bool} {D : Set TbPtr} {r : RangeResult}
  {L' : CacheLayout}

/-- What becomes of the processors when blocks are invalidated: an interrupt may be passed on. -/
theorem put_cpus (henv : Interrupted (m.single.map fun c => (m.cpus c).env) r.env) (c : ℕ) :
    ((m.put r).cpus c).tlbTable = (m.cpus c).tlbTable ∧
      ∀ tb, ((m.put r).cpus c).env.currentTb = some tb → (m.cpus c).env.currentTb = some tb := by
  cases hsingle : m.single with
  | none =>
      have hcpus : (m.put r).cpus = m.cpus := by
        simp only [Qemu.put, hsingle]
      rw [hcpus]
      exact ⟨rfl, fun _ h => h⟩
  | some c₀ =>
      rw [hsingle] at henv
      obtain ⟨env', hr, hcur⟩ : ∃ env', r.env = some env' ∧
          ∀ tb, env'.currentTb = some tb → (m.cpus c₀).env.currentTb = some tb := by
        rcases henv with h | h
        · exact ⟨_, h, fun _ h => h⟩
        · exact ⟨_, h, nofun⟩
      have hcpus : (m.put r).cpus =
          Function.update m.cpus c₀ { m.cpus c₀ with env := env' } := by
        simp only [Qemu.put, hsingle, hr]
      rw [hcpus]
      by_cases hc : c = c₀
      · subst hc
        rw [Function.update_self]
        exact ⟨rfl, hcur⟩
      · rw [Function.update_of_ne hc]
        exact ⟨rfl, fun _ h => h⟩

/-- A page that has all its flags keeps them. -/
theorem tlbUnprotectCodePhys_eq_all {dirty : Word32 → UInt8} {i : Word32} (start : Addr32)
    (hi : dirty i = 0xff) : tlbUnprotectCodePhys dirty start i = 0xff := by
  rw [tlbUnprotectCodePhys]
  by_cases hindex : i = pageIndex start
  · subst hindex
    rw [Function.update_self, hi]
    rfl
  · rw [Function.update_of_ne hindex]
    exact hi

/-- **Invalidating the blocks that a write hits** keeps the invariant. -/
theorem put (h : Coherent hw m L) (hw' : Written m.cache L m.dirty
    (m.single.map fun c => (m.cpus c).env) start isCpuWriteAccess D r L') :
    Coherent hw (m.put r) L' := by
  have hcpus := put_cpus hw'.interrupted
  have hlive : ∀ tb ∈ L'.live, tb ∈ L.live := by
    rw [hw'.live]
    exact fun tb htb => htb.1
  refine ⟨h.cache.written hw', h.tlb.of_dirty (fun c => (hcpus c).1) fun i hi => ?_,
    fun i hi => ?_, fun tb htb => ?_, fun tb htb k b hb => ?_, fun c tb htb => ?_⟩
  · rcases hw'.unprotected with heq | ⟨-, -, heq⟩
    · exact (congrFun heq i).trans hi
    · exact (congrFun heq i).trans (tlbUnprotectCodePhys_eq_all start hi)
  · obtain ⟨x, hx⟩ := List.exists_mem_of_ne_nil _ hi
    have hflag := h.watched i (List.ne_nil_of_mem (hw'.mem_page h.cache.shape hx).1)
    rcases hw'.unprotected with heq | ⟨hnil, -, heq⟩
    · exact (congrArg (· i &&& codeDirtyFlag) heq).trans hflag
    · have hne : i ≠ pageIndex start := by
        rintro rfl
        exact hi hnil
      refine (congrArg (· i &&& codeDirtyFlag) heq).trans ?_
      simp only [tlbUnprotectCodePhys, Function.update_of_ne hne]
      exact hflag
  · refine (h.length tb (hlive tb htb)).trans ?_
    exact congrArg (fun tbs => (tbs tb).size.toNat) hw'.tbs.symm
  · have hbyte : ((m.put r).cache.tbs tb).byteAddr k = (m.cache.tbs tb).byteAddr k :=
      congrArg (fun tbs => (tbs tb).byteAddr k) hw'.tbs
    rw [hbyte]
    exact h.source tb (hlive tb htb) k b hb
  · obtain ⟨hknown, hsingle⟩ := h.current c tb ((hcpus c).2 tb htb)
    rw [hw'.known]
    exact ⟨hknown, hsingle⟩

/-- Afterwards the write hits no block any more. -/
theorem not_struck (h : Coherent hw m L) (hw' : Written m.cache L m.dirty
    (m.single.map fun c => (m.cpus c).env) start isCpuWriteAccess
    (Struck m.cache start stop (L.page (pageIndex start))) r L') :
    ∀ tb ∈ L'.live, tb ∉ Struck (m.put r).cache start stop (L'.page (pageIndex start)) := by
  rintro tb - ⟨n, hmem, hhit⟩
  obtain ⟨hpage, hnot⟩ := hw'.mem_page h.cache.shape hmem
  have htbs : (m.put r).cache.tbs = m.cache.tbs := hw'.tbs
  rw [htbs] at hhit
  exact hnot ⟨n, hpage, hhit⟩

end Put

/-! ### Other changes -/

/-- Changes of a processor that keep what it executes, or stop it. -/
theorem setCpu (h : Coherent hw m L) {c : ℕ} {f : CpuState → CpuState}
    (htlb : (m.setCpu c f).TlbOk hw)
    (hcur : ∀ tb, (f (m.cpus c)).env.currentTb = some tb →
      (m.cpus c).env.currentTb = some tb) : Coherent hw (m.setCpu c f) L := by
  refine ⟨h.cache, htlb, h.watched, h.length, h.source, fun c' tb htb => ?_⟩
  refine h.current c' tb ?_
  simp only [Qemu.setCpu] at htb
  by_cases hc : c' = c
  · subst hc
    rw [Function.update_self] at htb
    exact hcur tb htb
  · rwa [Function.update_of_ne hc] at htb

/-- Entries of the tables of blocks may be dropped, and made for live blocks. -/
theorem setJmpCache (h : Coherent hw m L) {c : ℕ}
    {f : (Word32 → Option TbPtr) → Word32 → Option TbPtr}
    (hf : ∀ cache i tb, f cache i = some tb → cache i = some tb ∨
      tb ∈ L.live ∧ tbJmpCacheHashFunc (m.cache.tbs tb).pc = i) :
    Coherent hw (m.setJmpCache c f) L := by
  refine ⟨h.cache.setJmpCache fun cache hcache i tb htb => ?_, h.tlb.setJmpCache f, h.watched,
    h.length, h.source, h.current⟩
  obtain ⟨j, hj⟩ := List.mem_iff_getElem?.mp hcache
  rw [List.getElem?_modify] at hj
  obtain ⟨old, hold, heq⟩ := Option.map_eq_some_iff.mp hj
  have hcached := h.cache.shape.cached old (List.mem_of_getElem? hold) i tb
  split_ifs at heq
  · subst heq
    exact (hf old i tb htb).elim hcached id
  · subst heq
    exact hcached htb

theorem or_and_codeDirtyFlag (d : UInt8) :
    (d ||| (0xff &&& ~~~ codeDirtyFlag)) &&& codeDirtyFlag = d &&& codeDirtyFlag := by
  refine UInt8.toBitVec_inj.mp ?_
  rw [UInt8.toBitVec_and, UInt8.toBitVec_or, BitVec.and_or_distrib_right, UInt8.toBitVec_and d]
  exact BitVec.or_zero

/-- The other flags of a page may be set. -/
theorem setDirtyFlags (h : Coherent hw m L) (addr : Addr32) :
    Coherent hw (m.setDirtyFlags addr) L := by
  refine ⟨h.cache, h.tlb.of_dirty (fun _ => rfl) fun i hi => ?_, fun i hi => ?_, h.length,
    h.source, h.current⟩
  · simp only [Qemu.setDirtyFlags]
    by_cases hindex : i = pageIndex addr
    · subst hindex
      rw [Function.update_self, hi]
      rfl
    · rw [Function.update_of_ne hindex]
      exact hi
  · simp only [Qemu.setDirtyFlags]
    by_cases hindex : i = pageIndex addr
    · subst hindex
      rw [Function.update_self, or_and_codeDirtyFlag]
      exact h.watched _ hi
    · rw [Function.update_of_ne hindex]
      exact h.watched i hi

end Coherent

end MemCheck
