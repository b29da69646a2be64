import AlphaOS.BlockKeeps
import AlphaOS.Fat16Read
import AlphaOS.Fat16Root

/-! What making an item leaves alone: the blocks of other owners, and with them the names of the
directories. -/
namespace AlphaOS.Fat16
open BlockHeap CString Kheap Streamer WordMemory

variable {fuel : ℕ} {disk : Disk} {p p' : FatPrivate} {k k' : FatState} {s s' : Kmem} {b n : ℕ}

/-- A mounted volume whose directories can be counted. -/
structure Ready (disk : Disk) (p : FatPrivate) : Prop extends Mounted disk p where
  directory : DirectoryOpen disk p

lemma totalItemsLoop_bounds {stream : DiskStream} (hdisk : stream.disk = disk.addr) {i : ℤ}
    {r : ℤ × DiskStream} (h : totalItemsLoop disk fuel stream i = some r) :
    i ≤ r.1 ∧ r.1 ≤ i + fuel ∧ r.2.disk = disk.addr := by
  induction fuel generalizing stream i with
  | zero => simp [totalItemsLoop] at h
  | succ fuel ih =>
    obtain ⟨hres, hstream, -⟩ := @diskstreamerRead_stores disk stream (fun _ => 0) 0 hdisk
      sizeofDirectoryItem (by norm_num)
    rw [totalItemsLoop, hres] at h
    simp only [ne_eq, not_true_eq_false, if_false] at h
    split_ifs at h
    · cases h
      exact ⟨le_rfl, by omega, hstream⟩
    · obtain ⟨hlow, hhigh, hon⟩ := ih hstream h
      exact ⟨by omega, by push_cast; omega, hon⟩
    · obtain ⟨hlow, hhigh, hon⟩ := ih hstream h
      exact ⟨by omega, by push_cast; omega, hon⟩

/-- A count is no error and at most the bound. -/
lemma Ready.count (h : Ready disk p) {sector : Word} {total : ℤ × FatPrivate}
    (hcount : fat16GetTotalItemsForDirectory fuel disk p sector = some total) :
    0 ≤ total.1 ∧ total.1 ≤ fuel ∧ Ready disk total.2 := by
  obtain ⟨stream, hdisk, -, heq⟩ := @fat16GetTotalItemsForDirectory_eq fuel disk p h.directory sector
  rw [heq] at hcount
  obtain ⟨r, hr, rfl⟩ := Option.map_eq_some_iff.1 hcount
  obtain ⟨hlow, hhigh, hon⟩ := totalItemsLoop_bounds hdisk hr
  exact ⟨by simpa using hlow, by simpa using hhigh, ⟨h.table, h.clusters, h.sectors⟩, r.2, rfl, hon⟩

/-- A new block next to an allocation. -/
lemma kzalloc_droppable {size : Word} (hpin : Pinned s.entries b n) (hlinked : Linked s.entries)
    (hpos : 0 < (heapBlocksFor size).toNat) (hne : (kzalloc s size).1 ≠ 0) :
    ∃ c < 25600, (kzalloc s size).1 = blockAddr c ∧ c ∉ Set.Ico b (b + n) ∧
      Pinned (kzalloc s size).2.entries c 1 := by
  obtain ⟨c, hc, heq, hfree, hnew⟩ := hlinked.kzalloc_pinned hne hpos
  exact ⟨c, hc, heq, fun hin => hpin.taken c hin.1 hin.2 hfree, hnew⟩

lemma fat16FreeDirectory_snd (k : FatState) (s : Kmem) (directory : Word) (hne : directory ≠ 0) :
    (fat16FreeDirectory k s directory).2 = kfree (if (k.directories directory).item ≠ 0
      then kfree s (k.directories directory).item else s) directory := by
  rw [fat16FreeDirectory, if_neg hne]
  change kfree (if (k.directories directory).item ≠ 0 then _ else _ : FatState × Kmem).2 _ = _
  split_ifs <;> rfl

lemma directorySize_eq {total : ℤ} (hlow : 0 ≤ total) (hhigh : total < 2 ^ 26) :
    (BitVec.ofInt 32 total * BitVec.ofNat 32 sizeofDirectoryItem).toNat = 32 * total.toNat := by
  obtain ⟨n, rfl⟩ := Int.eq_ofNat_of_zero_le hlow
  have hentry : sizeofDirectoryItem % 2 ^ 32 = 32 := rfl
  rw [BitVec.ofInt_natCast, BitVec.toNat_mul, BitVec.toNat_ofNat, BitVec.toNat_ofNat, hentry]
  omega

/-- Loading the entries of a directory whose record is the block `d`. -/
lemma readFatDirectory_keeps (hready : Ready disk k.fsPrivate) (hn : 0 < n) (hpool : b + n ≤ 25600)
    (hpin : Pinned s.entries b n) (hlinked : Linked s.entries) {d : ℕ} (hd : d < 25600)
    (hout : d ∉ Set.Ico b (b + n)) (hdpin : Pinned s.entries d 1) {cluster total : ℤ}
    (hcluster : 0 ≤ cluster) (hlow : 0 ≤ total) (hhigh : total < 2 ^ 26)
    {r : Word × FatState × Kmem}
    (h : readFatDirectory disk k s (blockAddr d) cluster total = some r) :
    KeepsRun b n s r.2.2 := by
  have hsize := directorySize_eq hlow hhigh
  have hne : blockAddr d ≠ 0 := blockAddr_ne_zero (by omega)
  unfold readFatDirectory at h
  dsimp only at h
  generalize hsz : BitVec.ofInt 32 total * BitVec.ofNat 32 sizeofDirectoryItem = size at h hsize
  have hsmall : size.toNat < 2 ^ 31 := by omega
  have hdpin' : Pinned (kzalloc s size).2.entries d 1 := hdpin.kzalloc one_pos (by omega) size
  have hdrop : ∀ s' : Kmem, s'.entries = (kzalloc s size).2.entries →
      Droppable (Set.Ico b (b + n)) s' (blockAddr d) := by
    intro s' hs'
    have hsame : Pinned s'.entries d 1 := by rwa [hs']
    exact hsame.droppable hd hout
  by_cases hnull : (kzalloc s size).1 = 0
  · rw [if_pos hnull] at h
    cases h
    rw [fat16FreeDirectory_snd _ _ _ hne]
    have hitem : ((k.setDirectory (blockAddr d) ⟨(kzalloc s size).1, total, 0, 0⟩).directories
        (blockAddr d)).item = 0 := by
      simp only [FatState.setDirectory, Function.update_self]
      exact hnull
    rw [if_neg (not_not.2 hitem)]
    exact (keepsRun_kzalloc hn hpool hsmall).trans (keepsRun_kfree (hdrop _ rfl))
  · rw [if_neg hnull] at h
    obtain ⟨res, hread, hr⟩ := Option.map_eq_some_iff.1 h
    have hint : size.toInt = size.toNat := BitVec.toInt_eq_toNat_of_lt (by omega)
    have hready' : Ready disk ((k.setDirectory (blockAddr d)
      ⟨(kzalloc s size).1, total, 0, 0⟩).log (.made (kzalloc s size).1)).fsPrivate := hready
    obtain ⟨code, p', mem', heq, -, hframe, hle, hiff⟩ := @fat16ReadInternal_chained disk _ _ cluster 0
      size.toInt hready'.table hready'.sectors
      (streamed_refl hready'.table hready'.clusters) (by omega) (kzalloc s size).2.mem
      (kzalloc s size).1
    rw [heq] at hread
    cases hread
    rw [hint, Int.toNat_natCast] at hframe
    have hstore : KeepsRun b n s ((kzalloc s size).2.withMem mem') :=
      keepsRun_store hn hpool hsmall fun x hx =>
        (hframe x (hx hnull)).trans (kzalloc_mem_of_not hx)
    dsimp only at hr
    by_cases hok : code = 0
    · rw [if_neg (not_not.2 hok)] at hr
      cases hr
      exact hstore
    · rw [if_pos hok] at hr
      cases hr
      -- a read that fails has something to read, so the buffer has blocks
      have hpos : 0 < (heapBlocksFor size).toNat := by
        have hblocks := heapBlocksFor_eq size
        by_contra hzero
        refine hok (le_antisymm hle (hiff.2 fun q hq => ?_))
        have hq0 : q = 0 := by
          rcases hq with h0 | hlt
          · exact h0
          · have hc := sizeOfClusterBytes_pos disk hready'.sectors
            have hnonneg : 0 ≤ (q : ℤ) * sizeOfClusterBytes disk _ :=
              Int.mul_nonneg (Int.natCast_nonneg q) hc.le
            omega
        subst hq0
        have hfor : clusterFor disk k.fsPrivate cluster 0 = cluster := by
          rw [(clusterFor_eq disk hready.sectors cluster 0).2]
          simp [clusterLoop]
        simpa [FatState.log, FatState.setDirectory, hfor] using hcluster
      obtain ⟨c, hc, hbuf, hcout, hcpin⟩ := kzalloc_droppable hpin hlinked hpos hnull
      rw [fat16FreeDirectory_snd _ _ _ hne]
      have hitem : (((((k.setDirectory (blockAddr d) ⟨(kzalloc s size).1, total, 0, 0⟩).log
          (.made (kzalloc s size).1)).withPrivate p')).directories (blockAddr d)).item =
          (kzalloc s size).1 := by
        simp only [FatState.setDirectory, FatState.log, FatState.withPrivate, Function.update_self]
      rw [hitem, if_pos hnull]
      have hbufdrop : Droppable (Set.Ico b (b + n)) ((kzalloc s size).2.withMem mem')
          (kzalloc s size).1 := by
        rw [hbuf]
        exact hcpin.droppable hc hcout
      exact (hstore.trans (keepsRun_kfree hbufdrop)).trans
        (keepsRun_kfree ((hdrop ((kzalloc s size).2.withMem mem') rfl).kfree _))

lemma fat16GetFirstCluster_nonneg (item : FatDirectoryItem) : 0 ≤ (fat16GetFirstCluster item).toInt := by
  have hlt := (item.high16BitsFirstCluster ||| item.low16BitsFirstCluster).isLt
  rw [fat16GetFirstCluster, BitVec.toInt_eq_toNat_of_lt] <;> rw [BitVec.toNat_setWidth] <;> omega

lemma fat16LoadFatDirectory_keeps (hready : Ready disk k.fsPrivate) (hfuel : fuel < 2 ^ 26)
    (hn : 0 < n) (hpool : b + n ≤ 25600) (hpin : Pinned s.entries b n) (hlinked : Linked s.entries)
    {item : Word} {r : Word × FatState × Kmem}
    (h : fat16LoadFatDirectory fuel disk k s item = some r) : KeepsRun b n s r.2.2 := by
  have hkept : KeepsRun b n s (kzalloc s 16).2 := keepsRun_kzalloc hn hpool (by decide)
  unfold fat16LoadFatDirectory at h
  dsimp only at h
  split_ifs at h with hattributes hnull
  · cases h
    exact KeepsRun.refl b n s
  · cases h
    exact hkept
  · obtain ⟨total, hcount, hread⟩ := Option.bind_eq_some_iff.1 h
    have hready₁ : Ready disk (k.log (.made (kzalloc s 16).1)).fsPrivate := hready
    obtain ⟨hlow, hhigh, hready'⟩ := hready₁.count hcount
    obtain ⟨d, hd, heq, hout, hdpin⟩ := kzalloc_droppable hpin hlinked (by decide) hnull
    rw [heq] at hread
    exact hkept.trans (readFatDirectory_keeps hready' hn hpool (hkept.pinned hpin)
      (hkept.linked hlinked) hd hout hdpin (fat16GetFirstCluster_nonneg _) hlow (by omega) hread)

lemma fat16CloneDirectoryItem_keeps (hn : 0 < n) (hpool : b + n ≤ 25600) (k : FatState) (s : Kmem)
    (item : Word) :
    KeepsRun b n s (fat16CloneDirectoryItem k s item sizeofDirectoryItem).2.2 := by
  rw [fat16CloneDirectoryItem, if_neg (lt_irrefl _)]
  dsimp only
  split_ifs with hnull
  · exact keepsRun_kzalloc hn hpool (by decide)
  · refine keepsRun_store hn hpool (by decide) fun x hx => ?_
    have hapart : ¬ InRange (kzalloc s (BitVec.ofNat 32 sizeofDirectoryItem)).1 sizeofDirectoryItem x :=
      hx hnull
    rw [memcpy_of_not (by decide) hapart, kzalloc_mem_of_not hx]

/-- Making an item keeps an allocation of others. -/
lemma fat16NewFatItem_keeps (hready : Ready disk k.fsPrivate) (hfuel : fuel < 2 ^ 26)
    (hn : 0 < n) (hpool : b + n ≤ 25600) (hpin : Pinned s.entries b n) (hlinked : Linked s.entries)
    {item : Word} {r : Word × FatState × Kmem}
    (h : fat16NewFatItemForDirectoryItem fuel disk k s item = some r) : KeepsRun b n s r.2.2 := by
  have hkept : KeepsRun b n s (kzalloc s 8).2 := keepsRun_kzalloc hn hpool (by decide)
  unfold fat16NewFatItemForDirectoryItem at h
  dsimp only at h
  split_ifs at h with hnull hattributes
  · cases h
    exact hkept
  · obtain ⟨directory, hload, rfl⟩ := Option.map_eq_some_iff.1 h
    have hready' : Ready disk (k.log (.made (kzalloc s 8).1)).fsPrivate := hready
    have hload' := fat16LoadFatDirectory_keeps hready' hfuel hn hpool (hkept.pinned hpin)
      (hkept.linked hlinked) hload
    exact hkept.trans hload'
  · cases h
    have hclone := fat16CloneDirectoryItem_keeps hn hpool (k.log (.made (kzalloc s 8).1))
      (kzalloc s 8).2 item
    exact hkept.trans hclone

/-- The item is null exactly when its own block is refused. -/
lemma fat16NewFatItem_eq_zero {item : Word} {r : Word × FatState × Kmem}
    (h : fat16NewFatItemForDirectoryItem fuel disk k s item = some r) :
    r.1 = 0 ↔ (kzalloc s 8).1 = 0 := by
  unfold fat16NewFatItemForDirectoryItem at h
  dsimp only at h
  split_ifs at h with hnull hattributes
  · cases h
    exact iff_of_true rfl hnull
  · obtain ⟨directory, -, rfl⟩ := Option.map_eq_some_iff.1 h
    exact Iff.rfl
  · cases h
    exact Iff.rfl

/-! The volume stays mounted. -/

lemma Ready.streamed (h : Ready disk p) (hmoved : Streamed disk p p') : Ready disk p' := by
  obtain ⟨table, clusters, htable, hclusters, rfl⟩ := hmoved
  exact ⟨⟨⟨table, rfl, htable⟩, ⟨clusters, rfl, hclusters⟩, h.sectors⟩, h.directory⟩

lemma fat16FreeDirectory_private (k : FatState) (s : Kmem) (directory : Word) :
    (fat16FreeDirectory k s directory).1.fsPrivate = k.fsPrivate := by
  unfold fat16FreeDirectory
  dsimp only
  split_ifs <;> rfl

lemma readFatDirectory_ready (hready : Ready disk k.fsPrivate) {directory : Word}
    {cluster total : ℤ} (hlow : 0 ≤ total) (hhigh : total < 2 ^ 26) {r : Word × FatState × Kmem}
    (h : readFatDirectory disk k s directory cluster total = some r) : Ready disk r.2.1.fsPrivate := by
  have hsize := directorySize_eq hlow hhigh
  unfold readFatDirectory at h
  dsimp only at h
  generalize BitVec.ofInt 32 total * BitVec.ofNat 32 sizeofDirectoryItem = size at h hsize
  have hint : size.toInt = size.toNat := BitVec.toInt_eq_toNat_of_lt (by omega)
  split_ifs at h with hnull
  · cases h
    rw [fat16FreeDirectory_private]
    exact hready
  · obtain ⟨res, hread, hr⟩ := Option.map_eq_some_iff.1 h
    obtain ⟨code, p', mem', heq, hmoved, -⟩ := @fat16ReadInternal_chained disk _ _ cluster 0
      size.toInt hready.table hready.sectors (streamed_refl hready.table hready.clusters) (by omega)
      (kzalloc s size).2.mem (kzalloc s size).1
    change fat16ReadInternal disk k.fsPrivate _ _ _ _ _ = _ at hread
    rw [heq] at hread
    cases hread
    have hready' := hready.streamed hmoved
    split_ifs at hr
    · cases hr
      rw [fat16FreeDirectory_private]
      exact hready'
    · cases hr
      exact hready'

lemma fat16LoadFatDirectory_ready (hready : Ready disk k.fsPrivate) (hfuel : fuel < 2 ^ 26)
    {item : Word} {r : Word × FatState × Kmem}
    (h : fat16LoadFatDirectory fuel disk k s item = some r) : Ready disk r.2.1.fsPrivate := by
  unfold fat16LoadFatDirectory at h
  dsimp only at h
  split_ifs at h
  · cases h
    exact hready
  · cases h
    exact hready
  · obtain ⟨total, hcount, hread⟩ := Option.bind_eq_some_iff.1 h
    have hready₁ : Ready disk (k.log (.made (kzalloc s 16).1)).fsPrivate := hready
    obtain ⟨hlow, hhigh, hready'⟩ := hready₁.count hcount
    exact @readFatDirectory_ready disk
      ((k.log (.made (kzalloc s 16).1)).withPrivate total.2) _ hready' _ _ _ hlow (by omega) r hread

lemma fat16CloneDirectoryItem_private (k : FatState) (s : Kmem) (item : Word) (size : ℕ) :
    (fat16CloneDirectoryItem k s item size).2.1.fsPrivate = k.fsPrivate := by
  unfold fat16CloneDirectoryItem
  dsimp only
  split_ifs <;> rfl

lemma fat16NewFatItem_ready (hready : Ready disk k.fsPrivate) (hfuel : fuel < 2 ^ 26) {item : Word}
    {r : Word × FatState × Kmem}
    (h : fat16NewFatItemForDirectoryItem fuel disk k s item = some r) :
    Ready disk r.2.1.fsPrivate := by
  unfold fat16NewFatItemForDirectoryItem at h
  dsimp only at h
  split_ifs at h
  · cases h
    exact hready
  · obtain ⟨directory, hload, rfl⟩ := Option.map_eq_some_iff.1 h
    have hready' : Ready disk (k.log (.made (kzalloc s 8).1)).fsPrivate := hready
    have hloaded := fat16LoadFatDirectory_ready hready' hfuel hload
    exact hloaded
  · have hprivate := fat16CloneDirectoryItem_private (k.log (.made (kzalloc s 8).1))
      (kzalloc s 8).2 item sizeofDirectoryItem
    generalize fat16CloneDirectoryItem (k.log (.made (kzalloc s 8).1)) (kzalloc s 8).2 item
      sizeofDirectoryItem = clone at h hprivate
    cases h
    simp only [FatState.setItem, hprivate]
    exact hready

/-- The block of an item outlasts what is made for it. -/
lemma fat16NewFatItem_pinned (hready : Ready disk k.fsPrivate) (hfuel : fuel < 2 ^ 26)
    (hlinked : Linked s.entries) {item : Word} {r : Word × FatState × Kmem}
    (h : fat16NewFatItemForDirectoryItem fuel disk k s item = some r) (hne : r.1 ≠ 0) :
    ∃ c < 25600, r.1 = blockAddr c ∧ r.1 = (kzalloc s 8).1 ∧ IsFree s.entries c ∧
      Linked r.2.2.entries ∧ Pinned r.2.2.entries c 1 := by
  have hroom : (kzalloc s 8).1 ≠ 0 := fun hnull => hne ((fat16NewFatItem_eq_zero h).2 hnull)
  obtain ⟨c, hc, heq, hfree, hpin⟩ := hlinked.kzalloc_pinned hroom (by decide)
  have hlinked' : Linked (kzalloc s 8).2.entries := hlinked.kzalloc 8
  have hready' : Ready disk (k.log (.made (kzalloc s 8).1)).fsPrivate := hready
  unfold fat16NewFatItemForDirectoryItem at h
  dsimp only at h
  rw [if_neg hroom] at h
  split_ifs at h
  · obtain ⟨directory, hload, rfl⟩ := Option.map_eq_some_iff.1 h
    have hkept := fat16LoadFatDirectory_keeps hready' hfuel one_pos (by omega) hpin hlinked' hload
    exact ⟨c, hc, heq, rfl, hfree, hkept.linked hlinked', hkept.pinned hpin⟩
  · have hkept := fat16CloneDirectoryItem_keeps one_pos (show c + 1 ≤ 25600 by omega)
      (k.log (.made (kzalloc s 8).1)) (kzalloc s 8).2 item
    generalize fat16CloneDirectoryItem (k.log (.made (kzalloc s 8).1)) (kzalloc s 8).2 item
      sizeofDirectoryItem = clone at h hkept
    cases h
    exact ⟨c, hc, heq, rfl, hfree, hkept.linked hlinked', hkept.pinned hpin⟩

end AlphaOS.Fat16
