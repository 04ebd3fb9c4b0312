import Mathlib.Algebra.GroupWithZero.Nat
import MemCheck.MemoryAccess
import MemCheck.Placement

/-!
# Releasing a Block Piece by Piece

The kernel gives boot memory and its init sections back page by page: one recorded block,
many calls of `FreeAnySizeMemory`. The block is cut into consecutive nonempty chunks and
each chunk is freed once, in any order. In the place of the block the map then holds its
*fragments*: pieces of it that together cover exactly the chunks not freed yet.

The invariant (`Fragments`) is stated against the list of chunks still to be freed: every
fragment consists of bytes of such chunks, and every such chunk lies inside one fragment.
Freeing a chunk cuts it out of the fragment around it, which leaves the chunks on either
side inside the head or the tail. Nothing is asked of the other entries than that lookups of
the block's bytes are not sent to them (`Served`).

## Main results

* `Fragmented.step`: one call;
* `piecewise_release`: any order of all the chunks.
-/

namespace MemCheck

/-! ### Chunks -/

/-- Consecutive chunks of the given sizes, from `p` on. -/
def chunks : Addr32 → List Word32 → List MemoryAlloc
  | _, [] => []
  | p, n :: ns => ⟨p, n⟩ :: chunks (p + n) ns

/-- The number of bytes in chunks of the given sizes. -/
def totalSize (ns : List Word32) : ℕ := (ns.map UInt32.toNat).sum

section Chunks

variable {p : Addr32} {ns : List Word32}

theorem totalSize_cons (n : Word32) (ns : List Word32) :
    totalSize (n :: ns) = n.toNat + totalSize ns := by
  simp [totalSize]

/-- Where the second chunk starts. -/
theorem toNat_next {n : Word32} (h : p.toNat + totalSize (n :: ns) < 2 ^ 32) :
    (p + n).toNat = p.toNat + n.toNat := by
  rw [totalSize_cons] at h
  rw [UInt32.toNat_add, Nat.mod_eq_of_lt (by omega)]

/-- A chunk is a nonempty part of the whole range. -/
theorem bounds_of_mem_chunks (hns : ∀ n ∈ ns, n ≠ 0)
    (h : p.toNat + totalSize ns < 2 ^ 32) {k : MemoryAlloc} (hk : k ∈ chunks p ns) :
    0 < k.size.toNat ∧ p.toNat ≤ k.address.toNat ∧
      k.address.toNat + k.size.toNat ≤ p.toNat + totalSize ns := by
  induction ns generalizing p with
  | nil => exact absurd hk List.not_mem_nil
  | cons n ns ih =>
      have hnext := toNat_next h
      rw [totalSize_cons] at h ⊢
      rcases List.mem_cons.mp hk with rfl | hk
      · have hn : n.toNat ≠ 0 := fun hc =>
          hns n List.mem_cons_self (UInt32.toNat_inj.mp hc)
        simp only
        omega
      · obtain ⟨h1, h2, h3⟩ := ih (fun m hm => hns m (List.mem_cons_of_mem n hm))
          (by omega) hk
        omega

/-- The chunks are disjoint and in address order. -/
theorem pairwise_chunks (hns : ∀ n ∈ ns, n ≠ 0) (h : p.toNat + totalSize ns < 2 ^ 32) :
    (chunks p ns).Pairwise fun k l => k.address.toNat + k.size.toNat ≤ l.address.toNat := by
  induction ns generalizing p with
  | nil => exact List.Pairwise.nil
  | cons n ns ih =>
      have hnext := toNat_next h
      have hns' : ∀ m ∈ ns, m ≠ 0 := fun m hm => hns m (List.mem_cons_of_mem n hm)
      rw [totalSize_cons] at h
      refine List.pairwise_cons.mpr ⟨fun l hl => ?_, ih hns' (by omega)⟩
      obtain ⟨-, h2, -⟩ := bounds_of_mem_chunks hns' (by omega) hl
      exact hnext ▸ h2

/-- Every byte of the range lies in a chunk. -/
theorem exists_chunk (hns : p.toNat + totalSize ns < 2 ^ 32) {q : ℕ} (h1 : p.toNat ≤ q)
    (h2 : q < p.toNat + totalSize ns) : ∃ k ∈ chunks p ns, k.Covers q := by
  induction ns generalizing p with
  | nil =>
      simp only [totalSize, List.map_nil, List.sum_nil] at h2
      omega
  | cons n ns ih =>
      have hnext := toNat_next hns
      rw [totalSize_cons] at hns h2
      by_cases hq : q < p.toNat + n.toNat
      · exact ⟨⟨p, n⟩, List.mem_cons_self, h1, hq⟩
      · obtain ⟨k, hk, hkq⟩ := ih (p := p + n) (by omega) (by omega) (by omega)
        exact ⟨k, List.mem_cons_of_mem _ hk, hkq⟩

end Chunks

/-- Two blocks that share no byte. -/
def MemoryAlloc.Apart (k l : MemoryAlloc) : Prop :=
  k.address.toNat + k.size.toNat ≤ l.address.toNat ∨
    l.address.toNat + l.size.toNat ≤ k.address.toNat

/-! ### Fragments -/

/-- The entries `F` are pieces of `e`, in address order, all of whose bytes belong to chunks
still to be freed, and each of these chunks lies inside one of them. -/
structure Fragments (e : Entry) (rest : List MemoryAlloc) (F : List Entry) : Prop where
  laid : Extent.Laid Entry.extent F
  fits : ∀ f ∈ F, f.1.Fits
  within : ∀ f ∈ F, f.1.extent.Within e.1.extent
  bytes : ∀ f ∈ F, ∀ q, f.1.Covers q → ∃ k ∈ rest, k.Covers q
  around : ∀ k ∈ rest, ∃ f ∈ F, f.1.address.toNat ≤ k.address.toNat ∧
    k.address.toNat + k.size.toNat ≤ f.1.address.toNat + f.1.size.toNat

section Fragments

variable {e f : Entry} {k : MemoryAlloc} {rest : List MemoryAlloc} {F F₁ F₂ : List Entry}

/-- A block is one fragment around any partition of it. -/
theorem Fragments.self {ns : List Word32} {order : List MemoryAlloc} (hfit : e.1.Fits)
    (hns : ∀ n ∈ ns, n ≠ 0) (htotal : totalSize ns = e.1.size.toNat)
    (horder : order.Perm (chunks e.1.address ns)) : Fragments e order [e] := by
  have htop : e.1.address.toNat + totalSize ns < 2 ^ 32 := htotal ▸ hfit
  refine ⟨List.pairwise_singleton _ e, List.forall_mem_singleton.mpr hfit,
    List.forall_mem_singleton.mpr ⟨le_rfl, le_rfl⟩, List.forall_mem_singleton.mpr ?_, ?_⟩
  · intro q hq
    obtain ⟨k, hk, hkq⟩ := exists_chunk htop hq.1 (htotal ▸ hq.2)
    exact ⟨k, horder.mem_iff.mpr hk, hkq⟩
  · intro k hk
    obtain ⟨-, h2, h3⟩ := bounds_of_mem_chunks hns htop (horder.mem_iff.mp hk)
    exact ⟨e, List.mem_singleton.mpr rfl, h2, htotal ▸ h3⟩

/-- The bytes covered by the fragments are those of the chunks still to be freed. -/
theorem Fragments.covers_iff (h : Fragments e rest F) (q : ℕ) :
    (∃ f ∈ F, f.1.Covers q) ↔ ∃ k ∈ rest, k.Covers q := by
  constructor
  · rintro ⟨f, hf, hq⟩
    exact h.bytes f hf q hq
  · rintro ⟨k, hk, hq1, hq2⟩
    obtain ⟨f, hf, h1, h2⟩ := h.around k hk
    exact ⟨f, hf, h1.trans hq1, hq2.trans_le h2⟩

/-- The head and the tail that a cut leaves are in address order. -/
theorem laid_remnants (type : ℤ) (hfit : f.1.Fits) (hlo : f.1.address.toNat ≤ k.address.toNat)
    (hhi : k.address.toNat + k.size.toNat ≤ f.1.address.toNat + f.1.size.toNat) :
    Extent.Laid Entry.extent (ShadowMemory.remnants type f k.address k.size) := by
  rw [ShadowMemory.remnants]
  split_ifs with hb hlt hlt
  · exact List.pairwise_singleton _ _
  · exact List.Pairwise.nil
  · have hsub : (k.address - f.1.address).toNat = k.address.toNat - f.1.address.toNat :=
      UInt32.toNat_sub_of_le _ _ (UInt32.le_iff_toNat_le.mpr hlo)
    have hne : f.1.address.toNat ≠ k.address.toNat := fun hc => hb (UInt32.toNat_inj.mp hc)
    refine List.pairwise_pair.mpr ?_
    simp only [Entry.extent, Extent.Before, MemoryAlloc.extent_stop, MemoryAlloc.extent_start,
      hsub, (ShadowMemory.toNat_tail hfit hhi).1]
    omega
  · exact List.pairwise_singleton _ _

/-- **Cutting a chunk out of the fragment around it.** -/
theorem Fragments.cut (h : Fragments e (k :: rest) (F₁ ++ f :: F₂)) (type : ℤ)
    (hlo : f.1.address.toNat ≤ k.address.toNat)
    (hhi : k.address.toNat + k.size.toNat ≤ f.1.address.toNat + f.1.size.toNat)
    (hrest : ∀ l ∈ rest, 0 < l.size.toNat) (hdisj : ∀ l ∈ rest, k.Apart l) :
    Fragments e rest (F₁ ++ (ShadowMemory.remnants type f k.address k.size ++ F₂)) := by
  have hf : f ∈ F₁ ++ f :: F₂ := List.mem_append_right F₁ List.mem_cons_self
  have hfit := h.fits f hf
  have hwithin := fun r hr =>
    ShadowMemory.within_of_mem_remnants type hfit hlo hhi (r := r) hr
  -- a piece is a remnant of the cut fragment or another fragment
  have hmem : ∀ g, g ∈ F₁ ++ (ShadowMemory.remnants type f k.address k.size ++ F₂) ↔
      g ∈ ShadowMemory.remnants type f k.address k.size ∨ (g ∈ F₁ ++ f :: F₂ ∧ g ≠ f) := by
    intro g
    have hnot := (List.nodup_cons.mp (List.nodup_middle.mp h.laid.nodup)).1
    simp only [List.mem_append, List.mem_cons] at hnot ⊢
    by_cases hgf : g = f
    · subst hgf
      tauto
    · tauto
  refine ⟨h.laid.replace (laid_remnants type hfit hlo hhi) hwithin, fun g hg => ?_,
    fun g hg => ?_, fun g hg q hq => ?_, fun l hl => ?_⟩
  · rcases (hmem g).mp hg with hr | ⟨hg, -⟩
    · obtain ⟨-, hends⟩ := ShadowMemory.of_mem_remnants type hfit hlo hhi hr
      have hlt := k.address.toNat_lt
      rw [MemoryAlloc.Fits] at hfit ⊢
      omega
    · exact h.fits g hg
  · rcases (hmem g).mp hg with hr | ⟨hg, -⟩
    · exact (hwithin g hr).trans (h.within f hf)
    · exact h.within g hg
  · rcases (hmem g).mp hg with hr | ⟨hold, hne⟩
    · obtain ⟨hfq, hkq⟩ := ShadowMemory.covers_of_mem_remnants hfit hlo hhi hr hq
      obtain ⟨l, hl, hlq⟩ := h.bytes f hf q hfq
      exact ⟨l, (List.mem_cons.mp hl).resolve_left fun heq => hkq (heq ▸ hlq), hlq⟩
    · -- another fragment shares no byte with the chunk, which lies in this one
      obtain ⟨l, hl, hlq⟩ := h.bytes g hold q hq
      refine ⟨l, (List.mem_cons.mp hl).resolve_left fun heq => hne ?_, hlq⟩
      subst heq
      have hfq : f.1.Covers q := ⟨hlo.trans hlq.1, hlq.2.trans_le hhi⟩
      exact h.laid.eq_of_meets hold hf
        (Extent.meets_iff_exists.mpr ⟨q, hq.contains, hfq.contains⟩)
  · obtain ⟨g, hg, hlo', hhi'⟩ := h.around l (List.mem_cons_of_mem k hl)
    by_cases hgf : g = f
    · subst hgf
      obtain ⟨r, hr, hr1, hr2⟩ := ShadowMemory.exists_remnant_around type hfit hhi (hrest l hl)
        hlo' hhi' (hdisj l hl)
      exact ⟨r, (hmem r).mpr (Or.inl hr), hr1, hr2⟩
    · exact ⟨g, (hmem g).mpr (Or.inr ⟨hg, hgf⟩), hlo', hhi'⟩

end Fragments

/-! ### One call -/

namespace ShadowMemory

/-- Lookups of every address of the entry are sent to the place where it stands, between `A`
and `D`, whose entries it does not meet. -/
structure ServedAt (s : ShadowMemory) (e : Entry) (A D : List Entry) : Prop where
  entries : s.entries = A ++ e :: D
  fits : e.1.Fits
  sent : ∀ q : Addr32, e.1.extent.Contains q.toNat →
    SearchTree.Splits MemoryAlloc.comp ⟨q, 0⟩ A (e :: D)
  apart : ∀ f ∈ A ++ D, ¬ f.1.extent.Meets e.1.extent

/-- The entry is served at the place where it stands. -/
def Served (s : ShadowMemory) (e : Entry) : Prop := ∃ A D, s.ServedAt e A D

/-- In a well-formed map every entry is served. -/
theorem WellFormed.served {s : ShadowMemory} (h : s.WellFormed) {e : Entry}
    (he : e ∈ s.entries) : s.Served e := by
  obtain ⟨A, D, hs⟩ := List.append_of_mem he
  have hlaid := hs ▸ h.laid
  refine ⟨A, D, hs, h.fits e he, fun q hq => splits_of_laid hlaid (hs ▸ h.fits) hq, ?_⟩
  intro f hf hm
  have hnot := (List.nodup_cons.mp (List.nodup_middle.mp hlaid.nodup)).1
  have hfs : f ∈ s.entries := by
    rw [hs]
    exact (List.Sublist.append_left (List.sublist_cons_self e D) A).mem hf
  exact hnot (h.eq_of_meets hfs he hm ▸ hf)

end ShadowMemory

/-- In the place of `e`, between `A` and `D`, the map has fragments around the chunks in
`rest`. -/
def Fragmented (e : Entry) (A D : List Entry) (rest : List MemoryAlloc)
    (s' : ShadowMemory) : Prop :=
  ∃ F, s'.entries = A ++ (F ++ D) ∧ Fragments e rest F

namespace Fragmented

variable {s s' : ShadowMemory} {e : Entry} {A D : List Entry} {k : MemoryAlloc}
  {rest : List MemoryAlloc}

/-- The bytes of `e` that are covered are those of the chunks still to be freed. -/
theorem covered_iff (h : Fragmented e A D rest s') (hs : s.ServedAt e A D) {q : ℕ}
    (hq : e.1.Covers q) : s'.Covered q ↔ ∃ k ∈ rest, k.Covers q := by
  obtain ⟨F, hF, hfrag⟩ := h
  rw [← hfrag.covers_iff, ShadowMemory.Covered, hF]
  refine exists_congr fun f => and_congr_left fun hfq => ?_
  have hother : f ∉ A ++ D := fun hf =>
    hs.apart f hf (Extent.meets_iff_exists.mpr ⟨q, hfq.contains, hq.contains⟩)
  simp only [List.mem_append] at hother ⊢
  tauto

/-- Entries of the fragmented map that are not fragments are the other entries. -/
theorem mem_iff_of_not_within (h : Fragmented e A D rest s') (hs : s.ServedAt e A D)
    (f : Entry) :
    f ∈ s'.entries ∧ ¬ f.1.extent.Within e.1.extent ↔ f ∈ s.entries ∧ f ≠ e := by
  obtain ⟨F, hF, hfrag⟩ := h
  have hin : f ∈ F → f.1.extent.Within e.1.extent := hfrag.within f
  have hout : f ∈ A ++ D → ¬ f.1.extent.Within e.1.extent := fun hf hw =>
    hs.apart f hf ((Extent.meets_self _).of_within hw)
  have hself : e.1.extent.Within e.1.extent := ⟨le_rfl, le_rfl⟩
  have hne : f ∈ A ++ D → f ≠ e := fun hf heq => hout hf (heq ▸ hself)
  rw [hF, hs.entries]
  simp only [List.mem_append, List.mem_cons] at hout hne ⊢
  tauto

/-- Lookups of the addresses of a fragment are sent to it. -/
theorem splits {f : Entry} {F₁ F₂ : List Entry} (hs : s.ServedAt e A D)
    (h : Fragments e rest (F₁ ++ f :: F₂)) (q : Addr32)
    (hq : f.1.extent.Contains q.toNat) :
    SearchTree.Splits MemoryAlloc.comp ⟨q, 0⟩ (A ++ F₁) (f :: (F₂ ++ D)) := by
  have hwithin := h.within f (List.mem_append_right F₁ List.mem_cons_self)
  have houter := hs.sent q ⟨hwithin.1.trans hq.1, hq.2.trans_le hwithin.2⟩
  have hinner := ShadowMemory.splits_of_laid h.laid h.fits hq
  refine ⟨List.forall_mem_append.mpr ⟨houter.below, hinner.below⟩, ?_⟩
  rw [← List.cons_append]
  exact List.forall_mem_append.mpr
    ⟨hinner.rest, fun y hy => houter.rest y (List.mem_cons_of_mem e hy)⟩

/-- **Freeing one chunk** succeeds, and fragments the map around the remaining chunks. -/
theorem step (h : Fragmented e A D (k :: rest) s') (hs : s.ServedAt e A D)
    (hk : 0 < k.size.toNat) (hk0 : k.address ≠ 0) (hrest : ∀ l ∈ rest, 0 < l.size.toNat)
    (hdisj : ∀ l ∈ rest, k.Apart l) (B : ShadowMemory.Balancer) (type : ℤ)
    (hplaced : (Op.freeAnySizeMemory type k.address k.size).Placed B s') :
    (s'.freeAnySizeMemory B type k.address k.size).ret = 0 ∧
      Fragmented e A D rest (s'.freeAnySizeMemory B type k.address k.size).shadow := by
  obtain ⟨F, hF, hfrag⟩ := h
  obtain ⟨f, hf, hlo, hhi⟩ := hfrag.around k List.mem_cons_self
  have hfit := hfrag.fits f hf
  have hc : f.1.extent.Contains k.address.toNat :=
    ⟨hlo, by rw [MemoryAlloc.extent_stop]; omega⟩
  obtain ⟨F₁, F₂, rfl⟩ := List.append_of_mem hf
  have hs' : s'.entries = (A ++ F₁) ++ f :: (F₂ ++ D) := by
    rw [hF]
    simp
  obtain ⟨hret, hentries⟩ := ShadowMemory.freeAnySizeMemory_of_splits B type hs'
    (splits hs hfrag) hplaced hk0 hc hfit hhi
  refine ⟨hret, _, ?_, hfrag.cut type hlo hhi hrest hdisj⟩
  rw [hentries]
  simp

end Fragmented

/-! ### Releasing in any order -/

/-- One call of `FreeAnySizeMemory`, which rebalances in its own way. -/
def releaseStep (type : ℤ) (s : ShadowMemory) (a : ShadowMemory.Balancer × MemoryAlloc) :
    ShadowMemory :=
  (s.freeAnySizeMemory a.1 type a.2.address a.2.size).shadow

/-- One call per chunk. -/
def releaseChunks (type : ℤ) (s : ShadowMemory)
    (ks : List (ShadowMemory.Balancer × MemoryAlloc)) : ShadowMemory :=
  Run.final (releaseStep type) s ks

/-- Every part that a call keeps of an entry is put back at a slot that separates. -/
def ReleasePlaced (type : ℤ) (s : ShadowMemory)
    (ks : List (ShadowMemory.Balancer × MemoryAlloc)) : Prop :=
  Run.Along (releaseStep type)
    (fun s a => (Op.freeAnySizeMemory type a.2.address a.2.size).Placed a.1 s) s ks

instance (type : ℤ) (s : ShadowMemory) (ks : List (ShadowMemory.Balancer × MemoryAlloc)) :
    Decidable (ReleasePlaced type s ks) :=
  inferInstanceAs (Decidable (Run.Along _ _ _ _))

theorem releaseChunks_concat (type : ℤ) (s : ShadowMemory)
    (ks : List (ShadowMemory.Balancer × MemoryAlloc))
    (a : ShadowMemory.Balancer × MemoryAlloc) :
    releaseChunks type s (ks ++ [a]) = releaseStep type (releaseChunks type s ks) a :=
  Run.final_append _ s ks [a]

/-- The chunks are not empty, none starts at zero and no two share a byte. -/
structure Separated (ks : List MemoryAlloc) : Prop where
  size : ∀ k ∈ ks, 0 < k.size.toNat
  address : ∀ k ∈ ks, k.address ≠ 0
  apart : ks.Pairwise MemoryAlloc.Apart

theorem Separated.tail {k : MemoryAlloc} {ks : List MemoryAlloc} (h : Separated (k :: ks)) :
    Separated ks :=
  ⟨fun l hl => h.size l (List.mem_cons_of_mem k hl),
    fun l hl => h.address l (List.mem_cons_of_mem k hl), (List.pairwise_cons.mp h.apart).2⟩

theorem separated_of_perm {p : Addr32} {ns : List Word32} {order : List MemoryAlloc}
    (hp : p ≠ 0) (hns : ∀ n ∈ ns, n ≠ 0) (hfit : p.toNat + totalSize ns < 2 ^ 32)
    (horder : order.Perm (chunks p ns)) : Separated order := by
  have hbounds : ∀ k ∈ order, _ := fun k hk =>
    bounds_of_mem_chunks hns hfit (horder.mem_iff.mp hk)
  refine ⟨fun k hk => (hbounds k hk).1, fun k hk hk0 => ?_, ?_⟩
  · have hle := (hbounds k hk).2.1
    rw [hk0, UInt32.toNat_zero] at hle
    exact hp (UInt32.toNat_inj.mp (Nat.le_zero.mp hle))
  · refine (horder.pairwise_iff fun {k l} h => h.symm).mpr ?_
    exact List.Pairwise.imp (fun {k l} h => Or.inl h) (pairwise_chunks hns hfit)

section Run

variable {s s' : ShadowMemory} {e : Entry} {A D : List Entry} {rest : List MemoryAlloc}
  {pre order : List (ShadowMemory.Balancer × MemoryAlloc)}

theorem Fragmented.step_head {a : ShadowMemory.Balancer × MemoryAlloc} (type : ℤ)
    (hs : s.ServedAt e A D) (h : Fragmented e A D (a.2 :: rest) s')
    (hsep : Separated (a.2 :: rest))
    (hplaced : (Op.freeAnySizeMemory type a.2.address a.2.size).Placed a.1 s') :
    (s'.freeAnySizeMemory a.1 type a.2.address a.2.size).ret = 0 ∧
      Fragmented e A D rest (releaseStep type s' a) :=
  h.step hs (hsep.size _ List.mem_cons_self) (hsep.address _ List.mem_cons_self)
    (hsep.tail.size) (List.pairwise_cons.mp hsep.apart).1 a.1 type hplaced

/-- The invariant after any number of calls. -/
theorem Fragmented.run (type : ℤ) (hs : s.ServedAt e A D)
    (h : Fragmented e A D (pre.map Prod.snd ++ rest) s')
    (hsep : Separated (pre.map Prod.snd ++ rest)) (hplaced : ReleasePlaced type s' pre) :
    Fragmented e A D rest (releaseChunks type s' pre) ∧ Separated rest := by
  induction pre generalizing s' with
  | nil => exact ⟨h, hsep⟩
  | cons a pre ih => exact ih (h.step_head type hs hsep hplaced.1).2 hsep.tail hplaced.2

/-- Freeing a chunk inside a fragment is admissible. -/
theorem Fragmented.admissible {k : MemoryAlloc} (type : ℤ) (hwf : s'.WellFormed)
    (h : Fragmented e A D (k :: rest) s') (hk : 0 < k.size.toNat) :
    (Op.freeAnySizeMemory type k.address k.size).Admissible s' := by
  obtain ⟨F, hF, hfrag⟩ := h
  obtain ⟨f, hf, hlo, hhi⟩ := hfrag.around k List.mem_cons_self
  intro g hg h1 h2
  have hfs : f ∈ s'.entries := by
    rw [hF]
    simp [hf]
  have hfc : f.1.Covers k.address.toNat := ⟨hlo, by omega⟩
  have hgc : g.1.Covers k.address.toNat := ⟨h1.le, h2⟩
  rw [hwf.eq_of_contains hg hfs hgc.contains hfc.contains]
  exact hhi

/-- In a well-formed map every call of a piecewise release is placed. -/
theorem Fragmented.placed (type : ℤ) (hs : s.ServedAt e A D) (hwf : s'.WellFormed)
    (h : Fragmented e A D (order.map Prod.snd) s') (hsep : Separated (order.map Prod.snd)) :
    ReleasePlaced type s' order := by
  induction order generalizing s' with
  | nil => trivial
  | cons a order ih =>
      have hadm := h.admissible type hwf (hsep.size _ List.mem_cons_self)
      have hplaced := hwf.placed a.1 hadm fun _ _ _ heq => (by cases heq)
      exact ⟨hplaced, ih (Op.perform_wellFormed a.1 hwf hadm).wellFormed
        (h.step_head type hs hsep hplaced).2 hsep.tail⟩

end Run

/-- **Piecewise release in any order.** In any map, and however each call rebalances, let the
chunks of a partition of a recorded block be freed once each, in any order. If lookups of the
block's addresses are sent to it and every call puts what it keeps at a slot that separates,
then every call succeeds; after each one the covered bytes of the block are those of the chunks
not freed yet, the other entries are what they were, and at the end nothing of the block is
covered. Both conditions hold in a reached map whose entries all end below `2 ^ 32`. -/
theorem piecewise_release (type : ℤ) {s : ShadowMemory} {e : Entry} {ns : List Word32}
    {order : List (ShadowMemory.Balancer × MemoryAlloc)} (hp : e.1.address ≠ 0)
    (hns : ∀ n ∈ ns, n ≠ 0) (htotal : totalSize ns = e.1.size.toNat)
    (horder : (order.map Prod.snd).Perm (chunks e.1.address ns)) :
    (s.Reachable → (∀ f ∈ s.entries, f.1.address.toNat + f.1.size.toNat < 2 ^ 32) →
      e ∈ s.entries → s.Served e ∧ ReleasePlaced type s order) ∧
    (s.Served e → ReleasePlaced type s order →
      (∀ pre a post, order = pre ++ a :: post →
        ((releaseChunks type s pre).freeAnySizeMemory a.1 type a.2.address a.2.size).ret = 0 ∧
        (∀ q, e.1.Covers q → ((releaseChunks type s (pre ++ [a])).Covered q ↔
          ∃ l ∈ post, l.2.Covers q)) ∧
        ∀ f, f ∈ (releaseChunks type s (pre ++ [a])).entries ∧
            ¬ f.1.extent.Within e.1.extent ↔ f ∈ s.entries ∧ f ≠ e) ∧
      ∀ q, e.1.Covers q → ¬ (releaseChunks type s order).Covered q) := by
  have hinit : ∀ {A D}, s.ServedAt e A D → Fragmented e A D (order.map Prod.snd) s :=
    fun hs => ⟨[e], hs.entries, Fragments.self hs.fits hns htotal horder⟩
  have hsep : e.1.Fits → Separated (order.map Prod.snd) := fun hfit =>
    separated_of_perm hp hns (htotal ▸ hfit) horder
  refine ⟨fun hreach hfits he => ?_, ?_⟩
  · have hwf := hreach.wellFormed_of_fits hfits
    obtain ⟨A, D, hs⟩ := hwf.served he
    exact ⟨⟨A, D, hs⟩, (hinit hs).placed type hs hwf (hsep hs.fits)⟩
  · rintro ⟨A, D, hs⟩ hplaced
    refine ⟨fun pre a post heq => ?_, fun q hq hcov => ?_⟩
    · subst heq
      obtain ⟨hpre, ha, -⟩ := Run.along_append.mp hplaced
      have hstart := hinit hs
      have hsep := hsep hs.fits
      rw [List.map_append] at hstart hsep
      obtain ⟨hfrag, hsep⟩ := hstart.run type hs hsep hpre
      obtain ⟨hret, hnext⟩ := hfrag.step_head type hs hsep ha
      rw [releaseChunks_concat]
      refine ⟨hret, fun q hq => ?_, hnext.mem_iff_of_not_within hs⟩
      rw [hnext.covered_iff hs hq]
      simp only [List.mem_map, exists_exists_and_eq_and]
    · have hstart := hinit hs
      have hsep := hsep hs.fits
      rw [← List.append_nil (order.map Prod.snd)] at hstart hsep
      obtain ⟨hend, -⟩ := hstart.run type hs hsep hplaced
      obtain ⟨k, hk, -⟩ := (hend.covered_iff hs hq).mp hcov
      exact absurd hk List.not_mem_nil

/-- Three pages beside the last page of the address space, released middle first. -/
theorem piecewise_release_three_pages :
    ¬ (releaseChunks 0
        (ShadowMemory.lastPage.newMemoryAlloc SearchTree.Balancer.id 0 0xc1000000 0x3000).shadow
        [(.id, ⟨0xc1001000, 0x1000⟩), (.id, ⟨0xc1002000, 0x1000⟩),
          (.id, ⟨0xc1000000, 0x1000⟩)]).Covered 0xc1000800 := by
  have hserved : (ShadowMemory.lastPage.newMemoryAlloc SearchTree.Balancer.id 0 0xc1000000
      0x3000).shadow.Served (⟨0xc1000000, 0x3000⟩, ⟨0⟩) := by
    refine ⟨[(⟨0xfffff000, 0x1000⟩, ⟨0⟩), (⟨0xc0000000, 0x1000⟩, ⟨0⟩)], [], by decide,
      by decide, fun q hq => ?_, by decide⟩
    have hle : (0xc1000000 : Word32) ≤ q := UInt32.le_iff_toNat_le.mpr hq.1
    have hlt : q < (0xc1003000 : Word32) := UInt32.lt_iff_toNat_lt.mpr hq.2
    refine ⟨List.forall_mem_cons.mpr ⟨?_, List.forall_mem_singleton.mpr ?_⟩,
      List.forall_mem_singleton.mpr ?_⟩
    · simp [MemoryAlloc.comp]
    · simpa [MemoryAlloc.comp] using UInt32.le_trans (by decide) hle
    · simpa [MemoryAlloc.comp] using hlt
  have hns : ∀ n ∈ ([0x1000, 0x1000, 0x1000] : List Word32), n ≠ 0 := by simp
  exact ((piecewise_release 0 (by decide) hns (by decide) (by decide)).2 hserved
    (by decide)).2 0xc1000800 (by decide)

/-- Beside a block that ends exactly at `2 ^ 32` a recorded page cannot be released: the
lookup, sent past the block by its wrapped end, does not see the page. -/
theorem release_fails_beside_wrapped :
    (ShadowMemory.run ShadowMemory.empty (ShadowMemory.plain
        [.newMemoryAlloc 0 0xfffff000 0x1000, .newMemoryAlloc 0 0x2000 0x1000])).Reachable ∧
      ((⟨0x2000, 0x1000⟩, ⟨0⟩) : Entry) ∈
        (ShadowMemory.run ShadowMemory.empty (ShadowMemory.plain
          [.newMemoryAlloc 0 0xfffff000 0x1000, .newMemoryAlloc 0 0x2000 0x1000])).entries ∧
      [(⟨0x2000, 0x1000⟩ : MemoryAlloc)].Perm (chunks 0x2000 [0x1000]) ∧
      totalSize [0x1000] = (0x1000 : Word32).toNat ∧
      ((ShadowMemory.run ShadowMemory.empty (ShadowMemory.plain
        [.newMemoryAlloc 0 0xfffff000 0x1000,
          .newMemoryAlloc 0 0x2000 0x1000])).freeAnySizeMemory SearchTree.Balancer.id 0
            0x2000 0x1000).ret = 1 :=
  ⟨⟨_, rfl⟩, by decide, by decide, by decide, by decide⟩

end MemCheck
