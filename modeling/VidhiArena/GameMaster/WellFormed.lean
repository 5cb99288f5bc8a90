import VidhiArena.GameMaster.Volumes

/-!
# The book is well formed

The three structural promises of the flat book, read off its memory: sorted
levels, queues whose five bookkeeping fields are true, and a slab in which every
slot is either free or on one queue.

Sortedness, links, counts and the partition hold in every run. The one field
that can go wrong is `total_volume`: it is kept in 64 bits, so it is the sum of
the queue only while that sum fits.
-/

namespace VidhiArena.GameMaster

open VidhiArena.Foundation

namespace PersistentLOB

/-- The fields of a level agree with the chain from its head. -/
structure LevelOk (lob : PersistentLOB) (lv : PriceLevel) : Prop where
  path : Chain (fun i => (lob.pool.nodes i).next) nullIdx lv.head (lob.queue lv)
  acyclic : (lob.queue lv).Nodup
  tail : lv.tail = lastOr nullIdx (lob.queue lv)
  count : lv.count = (lob.queue lv).length
  ids : ((lob.queue lv).map fun i => (lob.pool.nodes i).orderId).Pairwise (· < ·)
  total : lv.totalVolume.toInt = ((lob.queue lv).map fun i => (lob.pool.nodes i).volume.toInt).sum

/-- The slab indices on the chains of both sides. -/
def chains (lob : PersistentLOB) : List UInt32 :=
  (lob.bids.levels ++ lob.asks.levels).flatMap lob.queue

structure WellFormed (lob : PersistentLOB) : Prop where
  bids : (lob.bids.levels.map PriceLevel.priceFp).Pairwise (· > ·)
  asks : (lob.asks.levels.map PriceLevel.priceFp).Pairwise (· < ·)
  levels : ∀ b, ∀ lv ∈ (lob.side b).levels, lob.LevelOk lv
  partition : ((lob.pool.freeStack ++ lob.chains).map UInt32.toNat).Perm
    (List.range orderPoolSize)

/-- A well-formed book has no level whose volume is out of range. -/
theorem WellFormed.sumsFit {lob : PersistentLOB} (h : lob.WellFormed) : lob.view.SumsFit := by
  intro b lv' hlv'
  have hside : lob.view.side b = (lob.side b).levels.map lob.viewLevel := by cases b <;> rfl
  rw [hside] at hlv'
  obtain ⟨lv, hlv, rfl⟩ := List.mem_map.mp hlv'
  have htotal := (h.levels b lv hlv).total
  have hqueue : Book.exactVolume (lob.viewLevel lv).queue =
      ((lob.queue lv).map fun i => (lob.pool.nodes i).volume.toInt).sum := by
    simp only [Book.exactVolume, viewLevel, List.map_map]
    rfl
  rw [hqueue, ← htotal]
  exact fits_toInt _

end PersistentLOB

theorem toNat_freeIndices : ∀ {n : Nat}, n ≤ orderPoolSize →
    ((OrderPool.freeIndices n).map UInt32.toNat).Perm (List.range n)
  | 0, _ => List.Perm.refl _
  | n + 1, hn => by
      have hlt : n < UInt32.size := by unfold orderPoolSize at hn; simp [UInt32.size]; omega
      rw [OrderPool.freeIndices, List.map_cons, UInt32.toNat_ofNat_of_lt' hlt, List.range_succ]
      exact ((toNat_freeIndices (by omega)).cons n).trans (List.perm_append_singleton n _).symm

theorem Refines.wellFormed {lob : PersistentLOB} {B : Book} (h : Refines lob B)
    (hfit : B.SumsFit) : lob.WellFormed := by
  obtain ⟨L, hrep, rfl⟩ := h
  have hqueues : ∀ b, (lob.side b).levels.flatMap lob.queue = Layout.slots (L.side b) := by
    intro b
    rw [hrep.mem_side_levels, List.flatMap_map]
    exact List.flatMap_congr fun g hg => hrep.queue_eq hg
  have hlevels : ∀ b, ∀ lv ∈ (lob.side b).levels, lob.LevelOk lv := by
    intro b lv hlv
    rw [hrep.mem_side_levels] at hlv
    obtain ⟨g, hg, rfl⟩ := List.mem_map.mp hlv
    have hok := hrep.ok b g hg
    have hqueue := hrep.queue_eq hg
    have hexact : Book.exactVolume (g.view lob.pool.nodes).queue =
        (g.chain.map fun i => (lob.pool.nodes i).volume.toInt).sum := by
      simp only [Book.exactVolume, GLevel.view, List.map_map]
      rfl
    have hsum := hfit b (g.view lob.pool.nodes)
      (by rw [Layout.view_side]; exact List.mem_map_of_mem hg)
    rw [hexact] at hsum
    refine ⟨?_, ?_, ?_, ?_, ?_, ?_⟩
    · rw [hqueue]
      exact hok.path
    · rw [hqueue]
      exact hrep.chain_nodup hg
    · rw [hqueue]
      exact hok.tail
    · rw [hqueue]
      exact hok.count
    · rw [hqueue]
      exact hok.ids
    · rw [hqueue, hok.total, toInt_sum, List.map_map]
      exact bmod_of_fits hsum
  have hprices : ∀ b, LOBSide.Sorted b ((lob.side b).levels.map PriceLevel.priceFp) := by
    intro b
    have := hrep.sorted_levels b
    rwa [hrep.descending b] at this
  refine ⟨?_, ?_, hlevels, ?_⟩
  · exact (hprices true).imp fun hab => of_decide_eq_true hab
  · exact (hprices false).imp fun hab => of_decide_eq_true hab
  · have hchains : lob.chains = L.indices := by
      rw [PersistentLOB.chains, List.flatMap_append, Layout.indices]
      exact congrArg₂ (· ++ ·) (hqueues true) (hqueues false)
    rw [hchains]
    exact (hrep.partition.map UInt32.toNat).trans (toNat_freeIndices le_rfl)

/-! ## Runs that keep the sums in range -/

/-- The volumes that `op` can leave in a level fit, judged by the book before
the call: the level that an order joins, the level that it leaves, and every
tail of the queues that a market order can eat into. -/
def BookOp.VolumesFit (B : Book) : BookOp → Prop
  | .addLimit isBid priceFp volume _ =>
      ∀ lv ∈ B.side isBid, lv.priceFp = priceFp →
        Fits (Book.exactVolume lv.queue + volume.toInt)
  | .cancel orderId =>
      ∀ b, ∀ lv ∈ B.side b,
        Fits (Book.exactVolume (lv.queue.filter fun o => o.orderId ≠ orderId))
  | .marketOrder isBuy _ _ =>
      ∀ lv ∈ B.side !isBuy, ∀ q, q <:+ lv.queue → Fits (Book.exactVolume q)

theorem Book.SumsFit.apply {B : Book} {op : BookOp} (h : B.SumsFit) (hop : op.VolumesFit B) :
    (B.applyBounded op).2.SumsFit := by
  intro b lv' hlv'
  cases op with
  | addLimit isBid p v participant =>
      rcases Book.mem_side_addLimitBounded hlv' with hold | ⟨rfl, hp, q, hq, hqueue⟩
      · exact h b lv' hold
      · have hbase : Fits (Book.exactVolume q) ∧ Fits (Book.exactVolume q + v.toInt) := by
          rcases hq with rfl | hmem
          · refine ⟨by decide, ?_⟩
            rw [Book.exactVolume_nil, Int.zero_add]
            exact fits_toInt v
          · exact ⟨h b ⟨p, q⟩ hmem, hop ⟨p, q⟩ hmem rfl⟩
        rcases hqueue with hqueue | hqueue
        · rw [hqueue]
          exact hbase.1
        · rw [hqueue, Book.exactVolume_append, Book.exactVolume_cons, Book.exactVolume_nil,
            Int.add_zero]
          exact hbase.2
  | cancel orderId =>
      obtain ⟨lv, hlv, _, hqueue | hqueue⟩ := Book.mem_side_cancel hlv'
      · rw [hqueue]
        exact h b lv hlv
      · rw [hqueue]
        exact hop b lv hlv
  | marketOrder isBuy v taker =>
      rcases Book.mem_side_marketOrder hlv' with hold | ⟨rfl, lv, hlv, _, hred⟩
      · exact h b lv' hold
      · exact hred.fits (hop lv hlv)

theorem runBounded_snoc (ops : List BookOp) (op : BookOp) :
    (Book.runBounded (ops ++ [op])).2 = ((Book.runBounded ops).2.applyBounded op).2 := by
  rw [Book.runBounded, traceFrom_append]
  rfl

section Runs

variable {ops : List BookOp} (hids : BookOp.adds ops < 2 ^ 64 - 1)
  (hmark : ∀ op ∈ ops, op ≠ .cancel emptyKey)
  (hfit : ∀ pre op post, ops = pre ++ op :: post →
    ∀ rs lob, PersistentLOB.run pre = .ok (rs, lob) → op.VolumesFit lob.view)

include hids hmark hfit

theorem sumsFit_run : (Book.runBounded ops).2.SumsFit := by
  induction ops using List.reverseRecOn with
  | nil =>
      intro b lv hlv
      cases b <;> exact absurd hlv List.not_mem_nil
  | append_singleton ops op ih =>
      rw [BookOp.adds_append] at hids
      have hmark' : ∀ op ∈ ops, op ≠ .cancel emptyKey :=
        fun o ho => hmark o (List.mem_append_left _ ho)
      have hsums := ih (by omega) hmark' fun pre o post heq =>
        hfit pre o (post ++ [op]) (by rw [heq]; simp)
      obtain ⟨lob, hrun, href⟩ := run_defined ops (by omega) hmark'
      have hop := hfit ops op [] rfl _ lob hrun
      rw [href.view_eq] at hop
      rw [runBounded_snoc]
      exact hsums.apply hop

/-- Every state of every such run is well formed. The calls are any calls
that never cancel the empty marker, ask for fewer than `2^64 - 1` ids and leave
no level with a volume outside `int64_t`. -/
theorem reachable_wellFormed :
    ∀ pre, pre <+: ops → ∃ rs lob, PersistentLOB.run pre = .ok (rs, lob) ∧
      lob.WellFormed := by
  rintro pre ⟨post, rfl⟩
  rw [BookOp.adds_append] at hids
  have hmark' : ∀ op ∈ pre, op ≠ .cancel emptyKey :=
    fun o ho => hmark o (List.mem_append_left _ ho)
  obtain ⟨lob, hrun, href⟩ := run_defined pre (by omega) hmark'
  refine ⟨_, lob, hrun, href.wellFormed (sumsFit_run (by omega) hmark' ?_)⟩
  intro pre' op post' heq
  exact hfit pre' op (post' ++ post) (by rw [heq]; simp)

end Runs

/-- Two orders at one price, which a market order then eats into. -/
theorem reachable_wellFormed_sweep :
    let ops := [BookOp.addLimit true 100 5 contestant, .addLimit true 100 7 botMM,
      .marketOrder false 6 botMOM]
    (∀ op ∈ ops, op ≠ .cancel emptyKey) ∧
      ∀ pre, pre <+: ops → ∃ rs lob, PersistentLOB.run pre = .ok (rs, lob) ∧
        lob.WellFormed := by
  intro ops
  have hmark : ∀ op ∈ ops, op ≠ .cancel emptyKey := by decide
  refine ⟨hmark, reachable_wellFormed (by decide) hmark ?_⟩
  intro pre op post heq rs lob hrun
  have hview : BookOp.adds pre < 2 ^ 64 - 1 → lob.view = (Book.runBounded pre).2 :=
    fun hids => (run_bounded hids hrun).2.view_eq
  rcases pre with _ | ⟨a, _ | ⟨b, _ | ⟨c, pre⟩⟩⟩
  · simp only [ops, List.nil_append, List.cons.injEq] at heq
    obtain ⟨rfl, rfl⟩ := heq
    rw [hview (by decide)]
    intro lv hlv
    exact absurd hlv List.not_mem_nil
  · simp only [ops, List.nil_append, List.cons_append, List.cons.injEq] at heq
    obtain ⟨rfl, rfl, rfl⟩ := heq
    rw [hview (by decide)]
    show ∀ lv ∈ [(⟨100, [⟨1, 5, contestant⟩]⟩ : BookLevel)], _
    decide
  · simp only [ops, List.nil_append, List.cons_append, List.cons.injEq] at heq
    obtain ⟨rfl, rfl, rfl, rfl⟩ := heq
    rw [hview (by decide)]
    show ∀ lv ∈ [(⟨100, [⟨1, 5, contestant⟩, ⟨2, 7, botMM⟩]⟩ : BookLevel)], _
    intro lv hlv q hq
    rw [List.mem_singleton.mp hlv, ← List.mem_tails] at hq
    revert q
    decide
  · simp [ops] at heq

/-- A level can lose count of its volume: two orders of `INT64_MAX` at one
price leave a `total_volume` of minus two. -/
theorem total_volume_wraps :
    ∃ rs lob, PersistentLOB.run [.addLimit true 100 Int64.maxValue contestant,
        .addLimit true 100 Int64.maxValue contestant] = .ok (rs, lob) ∧
      lob.bids.levels.map PriceLevel.totalVolume = [-2] ∧ ¬ lob.WellFormed := by
  obtain ⟨lob, hrun, href⟩ := run_defined
    [.addLimit true 100 Int64.maxValue contestant,
      .addLimit true 100 Int64.maxValue contestant] (by decide) (by decide)
  have htotals : (PersistentLOB.run [.addLimit true 100 Int64.maxValue contestant,
      .addLimit true 100 Int64.maxValue contestant]).map
        (fun r => r.2.bids.levels.map PriceLevel.totalVolume) = .ok [-2] := by
    decide +kernel
  rw [hrun] at htotals
  refine ⟨_, lob, hrun, Except.ok.inj htotals, fun hwf => ?_⟩
  have hfit := hwf.sumsFit true ⟨100, [⟨1, Int64.maxValue, contestant⟩,
    ⟨2, Int64.maxValue, contestant⟩]⟩ (by rw [href.view_eq]; decide)
  revert hfit
  decide

end VidhiArena.GameMaster
