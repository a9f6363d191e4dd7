/-
# Who owns the driver's blocks, and what cleanup releases

The law the driver is written to (`Ledger`): a live block is referred to from exactly one place,
a ring slot or the working entry; a released block from none; and `aesd_cleanup_module`, which
walks all ten slots, leaves every block ever handed out released exactly once.

The invariant of a run (`Inv`) carries the live blocks nothing refers to any more, so the law
holds exactly when there are none (`Inv.ledger_iff`).  The ring releases nothing when it
overwrites a slot, and `aesd_write` does not either, so each store in a full ring loses one
block (`leaked_run`) and nothing else ever does.  Hence the law holds in a state precisely when
no call of the run stored an entry in a full ring (`ledger_run_iff`).
-/
import Aesd.Driver.Spec

namespace Aesd.Driver

/-! ## 1. The law -/

/-- The eleven pointers of the device, in the order cleanup visits them: the working entry's and
then those of the slots. -/
def AesdDev.pointers (d : AesdDev) : List Ptr :=
  d.entry.buffptr ::
    (List.finRange maxWriteOperationsSupported).map fun i => (d.buffer.entry i).buffptr

/-- How many places of the device refer to a block. -/
def AesdDev.references (d : AesdDev) (id : ℕ) : ℕ :=
  d.pointers.countP fun p => p.id? = some id

/-- **The ownership law**, of a state between two calls. -/
structure Ledger (s : DriverState) : Prop where
  /-- A live block is referred to from one place. -/
  once : ∀ b ∈ s.heap.live, s.dev.references b.1 = 1
  /-- A released block is referred to from nowhere. -/
  released : ∀ id ∈ s.heap.released, s.dev.references id = 0
  /-- After cleanup every block ever handed out was released once. -/
  cleanup : ∀ id, id < s.heap.fresh → (aesdCleanupModule s).released.count id = 1

/-! ## 2. References and owned blocks -/

/-- An entry's pointer refers to the block the entry owns. -/
theorem AesdBufferEntry.countP_buffptr (e : AesdBufferEntry) (id : ℕ) :
    (if e.buffptr.id? = some id then 1 else 0) = (e.owned.map Prod.fst).count id := by
  obtain ⟨p, n⟩ := e
  cases p with
  | null => rfl
  | zeroSize => rfl
  | block j bytes =>
    simp only [AesdBufferEntry.owned, Ptr.id?, List.map_cons, List.map_nil, Option.some.injEq]
    rw [List.count_cons, List.count_nil, Nat.zero_add]
    simp only [beq_iff_eq]

/-- The slots refer to the blocks the buffer owns. -/
theorem AesdCircularBuffer.countP_owned (b : AesdCircularBuffer) (id : ℕ) :
    ∀ is : List (Fin maxWriteOperationsSupported),
      (is.map fun i => (b.entry i).buffptr).countP (fun p => p.id? = some id) =
        ((is.flatMap fun i => (b.entry i).owned).map Prod.fst).count id
  | [] => rfl
  | i :: is => by
    have ih := b.countP_owned id is
    have hi := (b.entry i).countP_buffptr id
    rw [List.map_cons, List.countP_cons, List.flatMap_cons, List.map_append, List.count_append, ih,
      ← hi, Nat.add_comm]
    simp only [decide_eq_true_eq]

/-- The places that refer to a block are the places that own it. -/
theorem AesdDev.references_eq (d : AesdDev) (id : ℕ) :
    d.references id = (d.owned.map Prod.fst).count id := by
  have he := d.entry.countP_buffptr id
  rw [AesdDev.references, AesdDev.pointers, List.countP_cons, AesdDev.owned, List.map_append,
    List.count_append, AesdCircularBuffer.owned, d.buffer.countP_owned id, ← he]
  simp only [decide_eq_true_eq]

/-! ## 3. Cleanup -/

/-- Releasing what some entries own, one after the other, leaves the rest. -/
theorem Heap.Wf.kfree_all {rest : List (ℕ × ℕ)} (b : AesdCircularBuffer) :
    ∀ (is : List (Fin maxWriteOperationsSupported)) {h : Heap}, h.Wf →
      h.live.Perm ((is.flatMap fun i => (b.entry i).owned) ++ rest) →
      (is.foldl (fun h i => h.kfree (b.entry i).buffptr) h).Wf ∧
        (is.foldl (fun h i => h.kfree (b.entry i).buffptr) h).live.Perm rest ∧
        (is.foldl (fun h i => h.kfree (b.entry i).buffptr) h).fresh = h.fresh
  | [], _, hw, hp => ⟨hw, hp, rfl⟩
  | i :: is, h, hw, hp => by
    rw [List.flatMap_cons, List.append_assoc] at hp
    obtain ⟨hw', hp', hf⟩ := hw.kfree hp
    obtain ⟨h1, h2, h3⟩ := Heap.Wf.kfree_all b is hw' hp'
    exact ⟨h1, h2, h3.trans hf⟩

/-- **Cleanup leaves exactly the blocks the driver lost track of.** -/
theorem Inv.cleanup {s : DriverState} {leaked : List (ℕ × ℕ)} (hi : Inv s leaked) :
    (aesdCleanupModule s).Wf ∧ (aesdCleanupModule s).live.Perm leaked ∧
      (aesdCleanupModule s).fresh = s.heap.fresh := by
  obtain ⟨hw, hp', hf⟩ := hi.heap.kfree hi.live_perm
  obtain ⟨h1, h2, h3⟩ := hw.kfree_all s.dev.buffer _ hp'
  exact ⟨h1, h2, h3.trans hf⟩

/-! ## 4. One state -/

/-- **The law holds in a state exactly when no block is lost.** -/
theorem Inv.ledger_iff {s : DriverState} {leaked : List (ℕ × ℕ)} (hi : Inv s leaked) :
    Ledger s ↔ leaked = [] := by
  have hnames := hi.owned.map Prod.fst
  have hnd := hnames.nodup_iff.mp hi.heap.nodup
  rw [List.map_append] at hnames hnd
  obtain ⟨hcw, hcp, hcf⟩ := hi.cleanup
  constructor
  · intro hl
    -- a lost block is alive and nothing refers to it
    cases hb : leaked with
    | nil => rfl
    | cons b rest =>
      subst hb
      have hlive : b ∈ s.heap.live :=
        hi.owned.mem_iff.mpr (List.mem_append_right _ List.mem_cons_self)
      have hone := hl.once b hlive
      rw [AesdDev.references_eq] at hone
      have hown : b.1 ∈ s.dev.owned.map Prod.fst := List.count_pos_iff.mp (by omega)
      have hlost : b.1 ∈ (b :: rest).map Prod.fst :=
        List.mem_map.mpr ⟨b, List.mem_cons_self, rfl⟩
      exact absurd rfl ((List.nodup_append.mp hnd).2.2 _ hown _ hlost)
  · rintro rfl
    rw [List.map_nil, List.append_nil] at hnames hnd
    refine ⟨?_, ?_, ?_⟩
    · intro b hb
      have hmem : b.1 ∈ s.dev.owned.map Prod.fst :=
        hnames.mem_iff.mp (List.mem_map.mpr ⟨b, hb, rfl⟩)
      rw [AesdDev.references_eq]
      exact List.count_eq_one_of_mem hnd hmem
    · intro id hid
      rw [AesdDev.references_eq, List.count_eq_zero]
      intro hmem
      have hlive := hnames.mem_iff.mpr hmem
      have hzero := hi.heap.unreleased id (Or.inl hlive)
      exact absurd hid (List.count_eq_zero.mp hzero)
    · intro id hid
      refine hcw.releasedOnce id (by omega) ?_
      rw [hcp.eq_nil]
      exact List.not_mem_nil

/-! ## 5. Runs -/

/-- The number of calls of a run that make the ring overwrite an entry. -/
def DriverState.evictions (s : DriverState) : List Call → ℕ
  | [] => 0
  | c :: cs => (if c.evicts s then 1 else 0) + (s.exec c).1.evictions cs

theorem evictions_concat (c : Call) : ∀ (cs : List Call) (s : DriverState),
    s.evictions (cs ++ [c]) = s.evictions cs + if c.evicts (s.run cs) then 1 else 0
  | [], _ => Nat.add_comm _ 0
  | d :: cs, s => by
    have ih := evictions_concat c cs (s.exec d).1
    rw [List.cons_append, DriverState.evictions, ih, DriverState.evictions, Nat.add_assoc]
    rfl

/-- No call evicts exactly when none does at its place of the run. -/
theorem evictions_eq_zero_iff : ∀ (calls : List Call) (s : DriverState),
    s.evictions calls = 0 ↔
      ∀ pre c post, calls = pre ++ c :: post → c.evicts (s.run pre) = false
  | [], s => by simp [DriverState.evictions]
  | d :: cs, s => by
    rw [DriverState.evictions, Nat.add_eq_zero_iff, evictions_eq_zero_iff cs (s.exec d).1]
    constructor
    · rintro ⟨hd, hcs⟩ pre c post heq
      cases pre with
      | nil =>
        obtain ⟨rfl, rfl⟩ := List.cons_eq_cons.mp heq
        simpa [DriverState.run] using hd
      | cons e pre =>
        obtain ⟨rfl, rfl⟩ := List.cons_eq_cons.mp heq
        exact hcs pre c post rfl
    · intro h
      constructor
      · have := h [] d cs rfl
        simpa [DriverState.run] using this
      · intro pre c post heq
        exact h (d :: pre) c post (by rw [heq]; rfl)

/-- **The run lemma.**  A run loses one block for each entry the ring overwrote, and no other. -/
theorem leaked_run (calls : List Call) :
    ∃ leaked, Inv (aesdInitModule.run calls) leaked ∧
      leaked.length = aesdInitModule.evictions calls := by
  induction calls using List.reverseRecOn with
  | nil => exact ⟨[], inv_init, rfl⟩
  | append_singleton cs c ih =>
    obtain ⟨leaked, hi, hlen⟩ := ih
    rw [run_concat, evictions_concat]
    refine ⟨_, hi.exec c, ?_⟩
    cases hev : c.evicts (aesdInitModule.run cs) with
    | false => simpa using hlen
    | true =>
      have hfull : (aesdInitModule.run cs).dev.buffer.full = true := by
        rw [Call.evicts, Bool.and_eq_true] at hev
        exact hev.1
      obtain ⟨b, hb⟩ := hi.overwritten_of_full hfull
      simp [hb, hlen, Nat.add_comm]

/-- **Exactly when the ownership law holds.**  In the state any sequence of calls reaches, each
live block is referred to once, no released block is referred to, and cleanup leaves every block
released exactly once, if and only if no call of the sequence stored an entry in a full ring. -/
theorem ledger_run_iff (calls : List Call) :
    Ledger (aesdInitModule.run calls) ↔
      ∀ pre c post, calls = pre ++ c :: post → c.evicts (aesdInitModule.run pre) = false := by
  obtain ⟨leaked, hi, hlen⟩ := leaked_run calls
  rw [hi.ledger_iff, ← List.length_eq_zero_iff, hlen, evictions_eq_zero_iff]

/-- **The eleventh command loses a block**: nothing refers to the first command's block any
more, and cleanup does not release it. -/
theorem ledger_eleven :
    ¬ Ledger (aesdInitModule.run (List.replicate 11 (.write 0 ⟨[newline], by decide⟩ {}))) := by
  intro h
  have h1 := h.once (0, 1) (by decide)
  exact absurd h1 (by decide)

end Aesd.Driver
