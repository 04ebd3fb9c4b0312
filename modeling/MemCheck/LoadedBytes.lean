import MemCheck.GuestLoads

/-!
# What Loads Return

A load returns the bytes that the table of translations leads to, whatever its size and its
alignment, and whether it takes the fast path or not. A byte that the load itself may have changed,
where the walk through the page tables writes to them, is left out; what a device answers is not
said.

## Main results

* `ld_eq_slowLd`: the fast path agrees with the slow one;
* `triple_ld`: what a load returns.
-/

namespace MemCheck

open LongJump (Triple Within)

/-! ### Bytes that are seen -/

/-- By the table, the byte `b` is at the address `x`. -/
def Sees (hw : Board) (c : ℕ) (access : Access) (mmu : MmuIdx) (m : Qemu) (x : Addr32)
    (b : UInt8) : Prop :=
  let e := (m.cpus c).tlbAt mmu x
  e.Matches access x ∧ (pageOffset (e.addrFor access) = 0 →
    m.Holds (x + e.addend - hw.physRamBase) b)

/-- The value is made up of the bytes at the address. -/
def Loaded (hw : Board) (c : ℕ) (access : Access) (mmu : MmuIdx) (m : Qemu) (addr : Addr32)
    (n : ℕ) (v : ℕ) : Prop :=
  ∃ bs : List UInt8, bs.length = n ∧ v = Bytes.leNat bs ∧
    ∀ k b, bs[k]? = some b → Sees hw c access mmu m (addr + UInt32.ofNat k) b

section Bytes

variable {hw : Board} {c : ℕ} {access : Access} {mmu : MmuIdx} {m m' : Qemu} {a x addr : Addr32}
  {b : UInt8} {sz : AccessSize}

/-- What is seen stays while the pages are accessed. -/
theorem Sees.steady (h : Sees hw c access mmu m x b) (hs : Steady hw c access mmu a m m')
    (hx : Near a x) : Sees hw c access mmu m' x b := by
  have hkept := hs.kept x hx h.1
  rw [Sees, hkept]
  exact ⟨h.1, fun hram => hs.calm.holds (h.2 hram)⟩

/-! ### Alignment -/

theorem AccessSize.bytes_le (sz : AccessSize) : sz.bytes ≤ 8 := by cases sz <;> decide

theorem AccessSize.bytes_pos (sz : AccessSize) : 0 < sz.bytes := by cases sz <;> decide

theorem AccessSize.toNat_and_mask (sz : AccessSize) (addr : Addr32) :
    (addr &&& sz.mask).toNat = addr.toNat % sz.bytes := by
  rw [UInt32.toNat_and]
  cases sz with
  | b => exact (Nat.and_zero _).trans (Nat.mod_one _).symm
  | w => exact Nat.and_two_pow_sub_one_eq_mod _ 1
  | l => exact Nat.and_two_pow_sub_one_eq_mod _ 2
  | q => exact Nat.and_two_pow_sub_one_eq_mod _ 3

theorem spans_iff : Spans addr sz ↔ 4096 < addr.toNat % 4096 + sz.bytes := by
  have hsize : (targetPageSize : Word32).toNat = 4096 := rfl
  have hpos := sz.bytes_pos
  rw [Spans, toNat_pageOffset, hsize]
  omega

/-- An access that does not span two pages stays on its page. -/
theorem pageIndex_add_of_not_spans (h : ¬ Spans addr sz) {k : ℕ} (hk : k < sz.bytes) :
    pageIndex (addr + UInt32.ofNat k) = pageIndex addr := by
  rw [spans_iff] at h
  have haddr := addr.toNat_lt
  have hle := sz.bytes_le
  refine UInt32.toNat_inj.mp ?_
  rw [toNat_pageIndex, toNat_pageIndex, UInt32.toNat_add, UInt32.toNat_ofNat']
  omega

/-- An aligned access does not span two pages. -/
theorem not_spans_of_aligned (h : addr &&& sz.mask = 0) : ¬ Spans addr sz := by
  have h := congrArg UInt32.toNat h
  rw [sz.toNat_and_mask] at h
  have hzero : (0 : Word32).toNat = 0 := rfl
  rw [spans_iff]
  cases sz <;> simp only [AccessSize.bytes, AccessSize.shift] at h ⊢ <;> omega

/-- All bytes of an access on one page are seen by one entry. -/
theorem loaded_of_entry (hhit : ((m.cpus c).tlbAt mmu addr).Matches access addr)
    (hspan : ¬ Spans addr sz) {bs : List UInt8} (hlen : bs.length = sz.bytes)
    (hbs : pageOffset (((m.cpus c).tlbAt mmu addr).addrFor access) = 0 → ∀ k b, bs[k]? = some b →
      m.ram (addr + ((m.cpus c).tlbAt mmu addr).addend - hw.physRamBase + UInt32.ofNat k) = b) :
    Loaded hw c access mmu m addr sz.bytes (Bytes.leNat bs) := by
  refine ⟨bs, hlen, rfl, fun k b hb => ?_⟩
  have hk : k < sz.bytes := by
    rw [← hlen]
    exact (List.getElem?_eq_some_iff.mp hb).1
  have hpage := pageIndex_add_of_not_spans hspan hk
  have hentry : (m.cpus c).tlbAt mmu (addr + UInt32.ofNat k) = (m.cpus c).tlbAt mmu addr := by
    rw [CpuState.tlbAt, tlbIndex_eq_of_pageIndex hpage, CpuState.tlbAt]
  rw [Sees, hentry]
  refine ⟨hhit.of_pageIndex hpage.symm, fun hram => .inl ?_⟩
  rw [← hbs hram k b hb]
  congr 1
  grind

/-! ### Loads of memory and devices -/

theorem triple_ldHost (hhit : ((m.cpus c).tlbAt mmu addr).Matches access addr)
    (hspan : ¬ Spans addr sz) :
    Triple (· = m) (ldHost hw (addr + ((m.cpus c).tlbAt mmu addr).addend) sz)
      (fun v m' => m' = m ∧ Loaded hw c access mmu m addr sz.bytes v) (fun _ _ => False) := by
  rintro m rfl
  refine ⟨rfl, loaded_of_entry hhit hspan Bytes.length_readBytes fun _ k b hb => ?_⟩
  have hk : k < sz.bytes := by
    have hlt := (List.getElem?_eq_some_iff.mp hb).1
    rwa [Bytes.length_readBytes] at hlt
  rw [Bytes.getElem?_readBytes hk] at hb
  exact Option.some.inj hb

/-- Whatever a device answers is made up of bytes. -/
theorem loaded_of_io (hhit : ((m.cpus c).tlbAt mmu addr).Matches access addr)
    (hio : pageOffset (((m.cpus c).tlbAt mmu addr).addrFor access) ≠ 0)
    (hspan : ¬ Spans addr sz) {v : ℕ} (hv : v < 256 ^ sz.bytes) :
    Loaded hw c access mmu m addr sz.bytes v := by
  have hload : Loaded hw c access mmu m addr sz.bytes
      (Bytes.leNat (Bytes.leBytes sz.bytes v)) :=
    loaded_of_entry hhit hspan Bytes.length_leBytes fun hram => absurd hram hio
  rwa [Bytes.leNat_leBytes, Nat.mod_eq_of_lt hv] at hload

theorem triple_ioRead (hhit : ((m.cpus c).tlbAt mmu addr).Matches access addr)
    (hio : pageOffset (((m.cpus c).tlbAt mmu addr).addrFor access) ≠ 0)
    (hspan : ¬ Spans addr sz) {physaddr tlbAddr : Addr32} :
    Triple (· = m) (ioRead hw sz physaddr tlbAddr)
      (fun v m' => Calm hw ∅ m m' ∧ m'.cpus = m.cpus ∧
        Loaded hw c access mmu m' addr sz.bytes v)
      (fun _ _ => False) := by
  have hcalm : ∀ io, Calm hw ∅ m { m with io := io } := fun io => .log m io m.announced
  have hpow : ∀ n : ℕ, 256 ^ n = 2 ^ (8 * n) := fun n => (pow_mul 2 8 n).symm
  cases sz with
  | q =>
      rintro m rfl
      refine ⟨hcalm _, rfl, loaded_of_io (m := { m with io := _ }) hhit hio hspan ?_⟩
      rw [hpow]
      refine Nat.or_lt_two_pow ((UInt32.toNat_lt _).trans_le (by decide)) ?_
      rw [Nat.shiftLeft_eq]
      have hlt := (hw.ioMemRead (m.io ++ [.read (ioIndex tlbAddr) 2 physaddr]) (ioIndex tlbAddr)
        2 (physaddr + 4)).toNat_lt
      simp only [AccessSize.bytes, AccessSize.shift]
      omega
  | _ =>
      rintro m rfl
      refine ⟨hcalm _, rfl, loaded_of_io (m := { m with io := _ }) hhit hio hspan ?_⟩
      rw [hpow]
      exact Nat.mod_lt _ (Nat.two_pow_pos _)

/-! ### Accesses that are not aligned -/

/-- The aligned address before. -/
theorem toNat_and_not_mask (sz : AccessSize) (addr : Addr32) :
    (addr &&& ~~~ sz.mask).toNat = addr.toNat - addr.toNat % sz.bytes := by
  have hsum := congrArg UInt32.toNat (and_add_and_not addr sz.mask)
  have hle : (addr &&& ~~~ sz.mask).toNat ≤ addr.toNat := by
    rw [UInt32.toNat_and]
    exact Nat.and_le_left
  have haddr := addr.toNat_lt
  have hmod := Nat.mod_le addr.toNat sz.bytes
  rw [UInt32.toNat_add, sz.toNat_and_mask] at hsum
  omega

theorem and_mask_eq_zero_iff : addr &&& sz.mask = 0 ↔ addr.toNat % sz.bytes = 0 := by
  rw [← UInt32.toNat_inj, sz.toNat_and_mask]
  rfl

/-- The first of two aligned accesses is on the page of the address. -/
theorem near_first (sz : AccessSize) (h : Near a addr) {j : ℕ} (hj : j < sz.bytes) :
    addr &&& ~~~ sz.mask &&& sz.mask = 0 ∧
      Near a ((addr &&& ~~~ sz.mask) + UInt32.ofNat j) := by
  have halign : addr &&& ~~~ sz.mask &&& sz.mask = 0 := by
    rw [UInt32.and_assoc, UInt32.not_and_self, UInt32.and_zero]
  have hpage : pageIndex (addr &&& ~~~ sz.mask) = pageIndex addr := by
    refine UInt32.toNat_inj.mp ?_
    rw [toNat_pageIndex, toNat_pageIndex, toNat_and_not_mask]
    cases sz <;> simp only [AccessSize.bytes, AccessSize.shift] <;> omega
  refine ⟨halign, ?_⟩
  rw [Near, pageIndex_add_of_not_spans (not_spans_of_aligned halign) hj, hpage]
  exact h

/-- The second is on the page of one of the bytes that are accessed. -/
theorem near_second (hnear : ∀ j < sz.bytes, Near a (addr + UInt32.ofNat j))
    (hun : addr &&& sz.mask ≠ 0) {j : ℕ} (hj : j < sz.bytes) :
    ((addr &&& ~~~ sz.mask) + UInt32.ofNat sz.bytes) &&& sz.mask = 0 ∧
      Near a ((addr &&& ~~~ sz.mask) + UInt32.ofNat sz.bytes + UInt32.ofNat j) := by
  have hne : addr.toNat % sz.bytes ≠ 0 := fun h => hun (and_mask_eq_zero_iff.mpr h)
  have hlt := Nat.mod_lt addr.toNat sz.bytes_pos
  have hle := sz.bytes_le
  have haddr := addr.toNat_lt
  have hmod := Nat.mod_le addr.toNat sz.bytes
  have hsame : (addr &&& ~~~ sz.mask) + UInt32.ofNat sz.bytes =
      addr + UInt32.ofNat (sz.bytes - addr.toNat % sz.bytes) := by
    refine UInt32.toNat_inj.mp ?_
    rw [UInt32.toNat_add, UInt32.toNat_add, toNat_and_not_mask, UInt32.toNat_ofNat',
      UInt32.toNat_ofNat']
    omega
  have halign : ((addr &&& ~~~ sz.mask) + UInt32.ofNat sz.bytes) &&& sz.mask = 0 := by
    rw [and_mask_eq_zero_iff, UInt32.toNat_add, toNat_and_not_mask, UInt32.toNat_ofNat']
    cases sz <;> simp only [AccessSize.bytes, AccessSize.shift] <;> omega
  refine ⟨halign, ?_⟩
  rw [Near, pageIndex_add_of_not_spans (not_spans_of_aligned halign) hj, hsame]
  exact hnear _ (by omega)

/-- A value put together from two aligned ones. -/
theorem Loaded.join {res1 res2 : ℕ}
    (h1 : Loaded hw c access mmu m (addr &&& ~~~ sz.mask) sz.bytes res1)
    (h2 : Loaded hw c access mmu m ((addr &&& ~~~ sz.mask) + UInt32.ofNat sz.bytes) sz.bytes
      res2) :
    Loaded hw c access mmu m addr sz.bytes (joinUnaligned sz addr res1 res2) := by
  obtain ⟨xs, hxs, rfl, hsees1⟩ := h1
  obtain ⟨ys, hys, rfl, hsees2⟩ := h2
  have hk := sz.toNat_and_mask addr
  have hlt := Nat.mod_lt addr.toNat sz.bytes_pos
  have haddr := toNat_and_not_mask sz addr
  have hjoin := Bytes.leNat_shift ys hxs hlt.le
  refine ⟨xs.drop (addr.toNat % sz.bytes) ++ ys.take (addr.toNat % sz.bytes), ?_, ?_,
    fun k b hb => ?_⟩
  · rw [List.length_append, List.length_drop, List.length_take, hxs, hys]
    omega
  · rw [← hjoin, joinUnaligned, hk, Nat.mul_comm _ 8, Nat.mul_comm _ 8]
  · have hlen : (xs.drop (addr.toNat % sz.bytes)).length = sz.bytes - addr.toNat % sz.bytes := by
      rw [List.length_drop, hxs]
    have hle := Nat.mod_le addr.toNat sz.bytes
    have hsz := sz.bytes_le
    by_cases hfirst : k < sz.bytes - addr.toNat % sz.bytes
    · rw [List.getElem?_append_left (by omega), List.getElem?_drop] at hb
      have hsame : addr + UInt32.ofNat k =
          (addr &&& ~~~ sz.mask) + UInt32.ofNat (addr.toNat % sz.bytes + k) := by
        refine UInt32.toNat_inj.mp ?_
        rw [UInt32.toNat_add, UInt32.toNat_add, haddr, UInt32.toNat_ofNat', UInt32.toNat_ofNat']
        omega
      rw [hsame]
      exact hsees1 _ b hb
    · rw [List.getElem?_append_right (by omega), hlen] at hb
      have hin := (List.getElem?_eq_some_iff.mp hb).1
      rw [List.length_take] at hin
      rw [List.getElem?_take_of_lt (by omega)] at hb
      have hsame : addr + UInt32.ofNat k = (addr &&& ~~~ sz.mask) + UInt32.ofNat sz.bytes +
          UInt32.ofNat (k - (sz.bytes - addr.toNat % sz.bytes)) := by
        refine UInt32.toNat_inj.mp ?_
        rw [UInt32.toNat_add, UInt32.toNat_add, UInt32.toNat_add, haddr, UInt32.toNat_ofNat',
          UInt32.toNat_ofNat', UInt32.toNat_ofNat']
        omega
      rw [hsame]
      exact hsees2 _ b hb

/-- What a load does. -/
structure LoadSpec (hw : Board) (c : ℕ) (access : Access) (mmu : MmuIdx) (a : Addr32) (m : Qemu)
    (addr : Addr32) (n : ℕ) (v : ℕ) (m' : Qemu) : Prop where
  steady : Steady hw c access mmu a m m'
  loaded : Loaded hw c access mmu m' addr n v

/-- The cases of a load whose entry has been found. -/
theorem triple_ldByEntry {unaligned : Emu ℕ} {E : Exit → Qemu → Prop}
    (hsteady : Steady hw c access mmu a m m')
    (hhit : ((m'.cpus c).tlbAt mmu addr).Matches access addr)
    (hunaligned : addr &&& sz.mask ≠ 0 →
      Triple (· = m') unaligned (LoadSpec hw c access mmu a m addr sz.bytes) E) :
    Triple (· = m') (ldByEntry hw sz access addr ((m'.cpus c).tlbAt mmu addr) unaligned)
      (LoadSpec hw c access mmu a m addr sz.bytes) E := by
  refine .ite (fun hio => .ite hunaligned fun halign => ?_) fun hram => .ite (fun hspan => ?_)
    fun hspan => ?_
  · refine (triple_ioRead hhit hio (not_spans_of_aligned (not_not.mp halign))).conseq
      (fun _ h => h) ?_ fun _ _ => False.elim
    rintro v m'' ⟨hcalm, hcpus, hload⟩
    exact ⟨hsteady.trans ⟨hcalm.mono (Set.empty_subset _), fun x _ _ => by rw [hcpus]⟩, hload⟩
  · exact hunaligned fun halign => not_spans_of_aligned halign hspan
  · rintro m' rfl
    exact ⟨hsteady, (triple_ldHost hhit hspan m' rfl).2⟩

/-- Two aligned loads, one after the other. -/
theorem triple_unaligned {load1 load2 : Emu ℕ} {E : Exit → Qemu → Prop}
    (hnear : Near a addr) (hsteady : Steady hw c access mmu a m m')
    (h1 : Triple (· = m') load1
      (LoadSpec hw c access mmu a m' (addr &&& ~~~ sz.mask) sz.bytes) E)
    (h2 : ∀ m₂, Steady hw c access mmu a m m₂ → Triple (· = m₂) load2
      (LoadSpec hw c access mmu a m₂ ((addr &&& ~~~ sz.mask) + UInt32.ofNat sz.bytes) sz.bytes)
        E) :
    Triple (· = m') (do
        let res1 ← load1
        let res2 ← load2
        pure (joinUnaligned sz addr res1 res2))
      (LoadSpec hw c access mmu a m addr sz.bytes) E := by
  refine h1.bind fun res1 m₂ hload₁ => ?_
  have hsteady₂ := hsteady.trans hload₁.steady
  refine (h2 m₂ hsteady₂).bind (fun res2 m₃ hload₂ => ?_) m₂ rfl
  refine ⟨hsteady₂.trans hload₂.steady, .join ?_ hload₂.loaded⟩
  -- what the first load has seen is still there
  obtain ⟨bs, hlen, hv, hsees⟩ := hload₁.loaded
  refine ⟨bs, hlen, hv, fun j b hb => (hsees j b hb).steady hload₂.steady ?_⟩
  exact (near_first sz hnear (hlen ▸ (List.getElem?_eq_some_iff.mp hb).1)).2

/-- **The slow path** returns the bytes that are seen. -/
theorem triple_slowLd (hhw : hw.Ok) (k : ℕ) (m : Qemu) (hsingle : m.single = some c)
    (hnear : ∀ j < sz.bytes, Near a (addr + UInt32.ofNat j)) :
    Triple (· = m) (slowLd hw c sz access mmu k addr)
      (LoadSpec hw c access mmu a m addr sz.bytes)
      (fun e m' => (addr &&& sz.mask = 0 ∧ 1 ≤ k ∨ 2 ≤ k → e = .exception) ∧
        Steady hw c access mmu a m m') := by
  induction k generalizing addr m with
  | zero =>
      rintro m rfl
      exact ⟨fun h => by omega, .refl m⟩
  | succ k ih =>
      have hnear₀ : Near a addr := Bytes.add_ofNat_zero addr ▸ hnear 0 sz.bytes_pos
      refine ((triple_tlbLookup hhw m hsingle _ _ _).weaken_exit
        fun e m' ⟨hexit, hcalm, hmiss⟩ => ⟨fun _ => hexit, hcalm.steady hnear₀
          fun h => absurd h hmiss⟩).bind fun e => ?_
      rintro m₁ hfound
      obtain rfl := hfound.entry
      have hsteady : Steady hw c access mmu a m m₁ := hfound.calm.steady hnear₀ hfound.same
      refine triple_ldByEntry hsteady hfound.hit (fun hun => ?_) m₁ rfl
      have hdepth : addr &&& sz.mask = 0 ∧ 1 ≤ k + 1 ∨ 2 ≤ k + 1 → 1 ≤ k := fun h =>
        h.elim (fun h => absurd h.1 hun) fun h => by omega
      refine triple_unaligned hnear₀ hsteady ?_ fun m₂ hsteady₂ => ?_
      · have hfirst := fun j hj => near_first (j := j) sz hnear₀ hj
        have hrest := ih m₁ (hsteady.calm.single.trans hsingle) fun j hj => (hfirst j hj).2
        exact hrest.weaken_exit fun e m' h => ⟨fun hk => h.1 (.inl
          ⟨(hfirst 0 sz.bytes_pos).1, hdepth hk⟩), hsteady.trans h.2⟩
      · have hsecond := fun j hj => near_second (j := j) hnear hun hj
        have hrest := ih m₂ (hsteady₂.calm.single.trans hsingle) fun j hj => (hsecond j hj).2
        exact hrest.weaken_exit fun e m' h => ⟨fun hk => h.1 (.inl
          ⟨(hsecond 0 sz.bytes_pos).1, hdepth hk⟩), hsteady₂.trans h.2⟩

/-! ### The fast path -/

/-- `__ld` and `slow_ld` both look for the entry, and the second time it is there. -/
theorem ldMmu_eq_slowLd (hhw : hw.Ok) (hsingle : m.single = some c) :
    ldMmu hw c sz access mmu addr m = slowLd hw c sz access mmu slowBound addr m := by
  have hfound := triple_tlbLookup hhw m hsingle access mmu addr m rfl
  cases hlookup : tlbLookup hw c access mmu addr redoBound m with
  | error e m' => exact (LongJump.bind_of_error hlookup).trans (LongJump.bind_of_error hlookup).symm
  | ok e m' =>
      rw [hlookup] at hfound
      obtain rfl := hfound.entry
      have hagain : tlbLookup hw c access mmu addr redoBound m' = .ok _ m' :=
        tlbLookup_of_matches hfound.hit
      refine (LongJump.bind_of_ok hlookup).trans (Eq.trans ?_ (LongJump.bind_of_ok hlookup).symm)
      have hslow := LongJump.bind_of_ok (f := fun e => ldByEntry hw sz access addr e do
        let res1 ← slowLd hw c sz access mmu 1 (addr &&& ~~~ sz.mask)
        let res2 ← slowLd hw c sz access mmu 1 ((addr &&& ~~~ sz.mask) + UInt32.ofNat sz.bytes)
        pure (joinUnaligned sz addr res1 res2)) hagain
      rw [ldByEntry]
      split_ifs with hio hun hspan
      · exact hslow
      · rw [ldByEntry, if_pos hio, if_neg hun]
      · exact hslow
      · rw [ldByEntry, if_neg hio, if_neg hspan]

/-- The comparison that the macros make: the entry is for this page, for memory, and the access is
aligned. -/
theorem TlbEntry.Ok.fast {e : TlbEntry} {dirty : Word32 → UInt8} (h : e.Ok hw dirty)
    (heq : e.addrFor access = addr &&& (targetPageMask ||| sz.mask)) :
    e.Matches access addr ∧ pageOffset (e.addrFor access) = 0 ∧ addr &&& sz.mask = 0 := by
  have hbits : ioIndex (targetPageMask ||| sz.mask) = 0 ∧
      (targetPageMask ||| sz.mask) &&& ~~~ targetPageMask = sz.mask ∧
      (targetPageMask ||| sz.mask) &&& targetPageMask = targetPageMask := by
    cases sz <;> decide
  have hzero : pageOffset (e.addrFor access) = 0 := by
    rcases h.plain access with hzero | hne
    · exact hzero
    · rw [heq, ioIndex_and, hbits.1, UInt32.and_zero] at hne
      exact absurd rfl hne
  have halign : addr &&& sz.mask = 0 := by
    rw [heq, pageOffset, UInt32.and_assoc, hbits.2.1] at hzero
    exact hzero
  refine ⟨?_, hzero, halign⟩
  have hpage : e.addrFor access = addr &&& targetPageMask := by
    rw [← mask_of_pageOffset hzero, heq, UInt32.and_assoc, hbits.2.2]
  rw [TlbEntry.Matches, hpage, UInt32.and_assoc]
  rfl

/-- **The fast path agrees with the slow one.** -/
theorem ld_eq_slowLd (hhw : hw.Ok) (hok : m.TlbOk hw) (hsingle : m.single = some c) :
    ld hw c sz access mmu addr m =
      (do announce addr sz; slowLd hw c sz access mmu slowBound addr : Emu ℕ) m := by
  let m₁ : Qemu := { m with announced := m.announced ++ [(addr, sz.bytes)] }
  have hld : ld hw c sz access mmu addr m =
      (if ((m₁.cpus c).tlbAt mmu addr).addrFor access ≠
          addr &&& (targetPageMask ||| sz.mask) then ldMmu hw c sz access mmu addr
        else ldHost hw (addr + ((m₁.cpus c).tlbAt mmu addr).addend) sz : Emu ℕ) m₁ := rfl
  refine hld.trans (Eq.trans ?_ (show slowLd hw c sz access mmu slowBound addr m₁ = _ from rfl))
  split_ifs with heq
  · exact ldMmu_eq_slowLd hhw hsingle
  · obtain ⟨hhit, hram, halign⟩ : _ ∧
        pageOffset (((m₁.cpus c).tlbAt mmu addr).addrFor access) = 0 ∧ _ :=
      (hok c mmu (tlbIndex addr)).fast (not_not.mp heq)
    have hlookup : tlbLookup hw c access mmu addr redoBound m₁ = .ok _ m₁ :=
      tlbLookup_of_matches hhit
    refine Eq.trans ?_ (LongJump.bind_of_ok hlookup).symm
    rw [ldByEntry, if_neg (not_not.mpr hram), if_neg (not_spans_of_aligned halign)]

/-- **A load returns the bytes that are seen**, or leaves by an exception. -/
theorem triple_ld (hhw : hw.Ok) (m : Qemu) (hok : m.TlbOk hw) (hsingle : m.single = some c)
    (sz : AccessSize) (access : Access) (mmu : MmuIdx)
    (hnear : ∀ j < sz.bytes, Near a (addr + UInt32.ofNat j)) :
    Triple (· = m) (ld hw c sz access mmu addr) (LoadSpec hw c access mmu a m addr sz.bytes)
      (fun e m' => e = .exception ∧ Steady hw c access mmu a m m') := by
  rintro m rfl
  let m₁ : Qemu := { m with announced := m.announced ++ [(addr, sz.bytes)] }
  have hannounce : Steady hw c access mmu a m m₁ :=
    ⟨.log m m.io _, fun _ _ _ => rfl⟩
  rw [ld_eq_slowLd hhw hok hsingle]
  exact ((triple_slowLd hhw slowBound m₁ hsingle hnear).conseq (fun _ h => h)
    (fun _ _ h => ⟨hannounce.trans h.steady, h.loaded⟩)
    fun _ _ h => ⟨h.1 (.inr le_rfl), hannounce.trans h.2⟩) m₁ rfl

/-- What lies no more than a page behind an address is on its page, or on the next one. -/
theorem near_add (a : Addr32) {j : ℕ} (hj : j ≤ 4096) : Near a (a + UInt32.ofNat j) := by
  have ha := a.toNat_lt
  have hsize : (targetPageSize : Word32).toNat = 4096 := rfl
  have hx : (pageIndex (a + UInt32.ofNat j)).toNat = (a.toNat + j) % 2 ^ 32 / 4096 := by
    rw [toNat_pageIndex, UInt32.toNat_add, UInt32.toNat_ofNat']
    omega
  by_cases hsame : a.toNat % 4096 + j < 4096
  · refine .inl (UInt32.toNat_inj.mp ?_)
    rw [hx, toNat_pageIndex]
    omega
  · refine .inr (UInt32.toNat_inj.mp ?_)
    rw [hx, toNat_pageIndex, UInt32.toNat_add, hsize]
    omega

end Bytes

/-! ### A small machine -/

/-- A board with one page of memory, which is there twice. -/
def Board.small : Board where
  physRamBase := 0x40000000
  physPageFind i := if i = 0x105 ∨ i = 0x106 then some 0x00105000 else none
  ioMemRead _ _ _ _ := 0

/-- An emulator with one processor, whose paging is off, and an empty table. -/
def Qemu.small : Qemu where
  cache := CodeCache.blank
  ram a := (a >>> 4).toUInt8
  dirty _ := 0xff
  cpus _ := ⟨⟨none, none, 0⟩, 0, fun _ _ => ⟨0xffffffff, 0xffffffff, 0xffffffff, 0⟩,
    ⟨0, 0, 0, 0, 0xffffffff, 0, 0, 0⟩⟩
  single := some 0
  io := []
  announced := []
  unseen := []
  source _ := []

end MemCheck
