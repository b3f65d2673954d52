import LihaLinux.Block.TransferInvariant

/-!
# The steps of a transfer

Each function of the driver keeps the invariant of transfers: a request is added, a pass sends a
command, and an interrupt reports a sector that is transferred or has failed.
-/

namespace LihaLinux.Hd

/-! ### Steps -/

section Steps

variable {t : Tables} {s s' : HardDisk} {r r' : Request} {rest : List Request} {k : ℕ}

/-- A state in which `do_hd_request` is called. -/
theorem Inv.call (houter : Outer t s) (hhead : Head t s) (hbusy : s.busy = .idle) :
    Inv t s.call := by
  refine ⟨houter.same ⟨rfl, rfl, rfl, rfl, rfl⟩, hhead, fun _ => hbusy, fun _ => hbusy, ?_⟩
  exact fun h => absurd h Bool.false_ne_true.symm

theorem makeRequest_atHalf (id dev : ℕ) (cmd : Cmd) (bh : BufferHead) :
    AtHalf (makeRequest id dev cmd bh) 0 := by
  refine ⟨Nat.zero_le 1, ?_, rfl, rfl⟩
  change mul32 bh.blocknr 2 = add32 (mul32 bh.blocknr 2) 0
  rw [add32, Nat.add_zero, mul32, Nat.mod_mod]

theorem Linked.frame (h : Linked t s r) (hbusy : s'.busy = s.busy) (hdoHd : s'.doHd = s.doHd)
    (hport : s'.port = s.port) (hmem : s'.mem = s.mem) : Linked t s' r := by
  rcases h with ⟨hother, hrecal⟩ | ⟨c, n, htransfer, hserves⟩
  · exact Or.inl ⟨hbusy.trans hother, hdoHd.trans hrecal⟩
  · refine Or.inr ⟨c, n, hbusy.trans htransfer, hdoHd.trans hserves.doHd, hserves.cmd,
      hserves.id, hserves.nsect, ?_, hserves.place⟩
    rw [hport, hmem]
    exact hserves.port

/-- A request is put into the queue. -/
theorem Inv.addRequest (h : Inv t s) (hrequesting : s.requesting = false) (dev : ℕ) (cmd : Cmd)
    (bh : BufferHead) (place : ℕ) : Inv t (s.addRequest dev cmd bh place) := by
  obtain ⟨r, hr⟩ : ∃ r, makeRequest s.nextId dev cmd bh = r := ⟨_, rfl⟩
  have hid : r.id = s.nextId := by
    rw [← hr]
    rfl
  have hhalf : AtHalf r 0 := by
    rw [← hr]
    exact makeRequest_atHalf ..
  have hunseen : ∀ o ∈ s.outcomes, o.id ≠ r.id := by
    intro o ho
    rw [hid]
    exact Nat.ne_of_lt (h.outer.outcomes o ho)
  rw [HardDisk.addRequest, hr]
  cases hqueue : s.queue with
  | nil =>
    have hids := h.outer.ids
    have hbelow := h.outer.below
    rw [hqueue] at hids hbelow
    apply Inv.call
    · refine ⟨?_, ?_, fun o ho => Nat.lt_succ_of_lt (h.outer.outcomes o ho), ?_, ?_,
        h.outer.commands⟩
      · change (r.id :: s.ended.map (·.1.id)).Nodup
        rw [List.nodup_cons]
        refine ⟨fun hmem => ?_, hids⟩
        have := hbelow r.id hmem
        omega
      · intro i hi
        change i ∈ r.id :: s.ended.map (·.1.id) at hi
        change i < s.nextId + 1
        rcases List.mem_cons.mp hi with rfl | hi
        · omega
        · have := hbelow i hi
          omega
      · exact fun q hq => absurd hq List.not_mem_nil
      · exact fun q hq => absurd hq List.not_mem_nil
    · intro q qs hq
      obtain ⟨rfl, rfl⟩ := List.cons.inj hq
      exact ⟨0, hhalf, fun _ => Done.zero hunseen⟩
    · exact h.control.empty hqueue
  | cons q qs =>
    have hids := h.outer.ids
    have hbelow := h.outer.below
    have hfresh := h.outer.fresh
    have hqunseen := h.outer.unseen
    rw [hqueue] at hids hbelow hfresh hqunseen
    have hperm : (q :: (qs.take place ++ r :: qs.drop place)).Perm (r :: q :: qs) := by
      apply (List.Perm.cons q List.perm_middle).trans
      rw [List.take_append_drop]
      exact List.Perm.swap r q qs
    have hmap := (hperm.map (·.id)).append_right (s.ended.map (·.1.id))
    have htail : ∀ p, p ∈ qs.take place ++ r :: qs.drop place → p = r ∨ p ∈ qs := by
      intro p hp
      have hp' := List.perm_middle.mem_iff.mp hp
      rw [List.take_append_drop] at hp'
      exact List.mem_cons.mp hp'
    refine ⟨⟨?_, ?_, fun o ho => Nat.lt_succ_of_lt (h.outer.outcomes o ho), ?_, ?_,
      h.outer.commands⟩, ?_, ?_⟩
    · apply hmap.nodup_iff.mpr
      change (r.id :: ((q :: qs).map (·.id) ++ s.ended.map (·.1.id))).Nodup
      rw [List.nodup_cons]
      refine ⟨fun hmem => ?_, hids⟩
      have := hbelow r.id hmem
      omega
    · intro i hi
      have hi' := hmap.mem_iff.mp hi
      change i ∈ r.id :: ((q :: qs).map (·.id) ++ s.ended.map (·.1.id)) at hi'
      change i < s.nextId + 1
      rcases List.mem_cons.mp hi' with rfl | hi'
      · omega
      · have := hbelow i hi'
        omega
    · intro p hp
      rcases htail p hp with rfl | hp
      · exact hhalf
      · exact hfresh p hp
    · intro p hp
      rcases htail p hp with rfl | hp
      · exact hunseen
      · exact hqunseen p hp
    · intro p ps hp
      obtain ⟨rfl, rfl⟩ := List.cons.inj hp
      exact h.head q qs hqueue
    · refine ⟨h.control.requesting, fun hnil => absurd hnil (List.cons_ne_nil _ _), ?_⟩
      intro _ p ps hp
      obtain ⟨rfl, rfl⟩ := List.cons.inj hp
      exact (h.control.linked hrequesting q qs hqueue).frame rfl rfl rfl rfl

/-- A command without data is given. -/
theorem Inv.other (h : Inv t s) {ready : Bool} {drive head : ℕ} {reset recalibrate : Bool}
    (hs' : ({ s with reset := reset, recalibrate := recalibrate, requesting := false } :
      HardDisk).hdOut ready drive head .other .recal = some s') (hqueue : s.queue = r :: rest) :
    Inv t s' ∧ NotWell s s' := by
  rw [HardDisk.hdOut] at hs'
  split_ifs at hs'
  cases hs'
  refine ⟨⟨h.outer.same ⟨rfl, rfl, rfl, rfl, rfl⟩, h.head, ?_, ?_, ?_⟩, Or.inl rfl⟩
  · exact fun hfalse => absurd hfalse Bool.false_ne_true
  · exact fun hnil => absurd (hqueue.symm.trans hnil) (List.cons_ne_nil r rest)
  · exact fun _ _ _ _ => Or.inl ⟨rfl, rfl⟩

/-- The command for the next sectors of `CURRENT` is given. -/
theorem Inv.issue (h : Inv t s) (hqueue : s.queue = r :: rest) {c : Command}
    (hrequest : c.request = r) (hcmd : c.cmd = r.cmd) (hnsect : c.nsect = r.nrSectors % 256)
    (hplace : InPartition t r → ∀ k, AtHalf r k →
      c.drive = r.dev / 5 ∧ c.first t = sectorOf t r k ∧ Addresses t c)
    {ready drq : Bool} {nullErrors : ℕ}
    (hs' : s.issue ready drq nullErrors r c = some s') : Inv t s' ∧ NotWell s s' := by
  obtain ⟨k, hk, hdone⟩ := h.head r rest hqueue
  have houter : Outer t { s with commands := c :: s.commands, requesting := false } := by
    refine ⟨h.outer.ids, h.outer.below, h.outer.outcomes, h.outer.fresh, h.outer.unseen, ?_⟩
    intro c' hc' hin
    rcases List.mem_cons.mp hc' with rfl | hc'
    · rw [hrequest] at hin
      exact (hplace hin k hk).2.2
    · exact h.outer.commands c' hc' hin
  have hserves (s₁ : HardDisk) (hdoHd : s₁.doHd = r.cmd.handler)
      (hport : r.cmd = .write → s₁.port = slice s₁.mem r.buffer) : Serves t s₁ r c 0 := by
    refine ⟨hdoHd, hcmd, by rw [hrequest], ?_, hport, ?_⟩
    · have hnr := hk.nrSectors
      omega
    · intro hin k' hk'
      obtain ⟨hdrive, hfirst, -⟩ := hplace hin k' hk'
      exact ⟨hdrive, hfirst⟩
  have hnonempty : s.queue ≠ [] := by
    rw [hqueue]
    exact List.cons_ne_nil r rest
  rw [HardDisk.issue] at hs'
  cases hr : r.cmd with
  | read =>
    rw [hr] at hs'
    dsimp only at hs'
    rw [HardDisk.hdOut] at hs'
    split_ifs at hs'
    cases hs'
    refine ⟨⟨houter.same ⟨rfl, rfl, rfl, rfl, rfl⟩, h.head, ?_, ?_, ?_⟩, Or.inl rfl⟩
    · exact fun hfalse => absurd hfalse Bool.false_ne_true
    · exact fun hnil => absurd hnil hnonempty
    · intro _ q qs hq
      obtain ⟨rfl, rfl⟩ := List.cons.inj (hqueue.symm.trans hq)
      refine Or.inr ⟨c, 0, rfl, hserves _ (by rw [hr]; rfl) ?_⟩
      rw [hr]
      exact fun hcmd' => absurd hcmd' (by decide)
  | write =>
    rw [hr] at hs'
    dsimp only at hs'
    rw [HardDisk.hdOut] at hs'
    split_ifs at hs' with hdrq hpanic hpanic
    · cases hs'
    · cases hs'
      refine ⟨⟨houter.same ⟨rfl, rfl, rfl, rfl, rfl⟩, h.head, ?_, ?_, ?_⟩, Or.inl rfl⟩
      · exact fun hfalse => absurd hfalse Bool.false_ne_true
      · exact fun hnil => absurd hnil hnonempty
      · intro _ q qs hq
        obtain ⟨rfl, rfl⟩ := List.cons.inj (hqueue.symm.trans hq)
        exact Or.inr ⟨c, 0, rfl, hserves _ (by rw [hr]; rfl) fun _ => rfl⟩
    · cases hs'
    · obtain ⟨s₁, hs₁⟩ : ∃ s₁ : HardDisk, { s with
        commands := c :: s.commands, requesting := false, doHd := .write, busy := .idle } =
          s₁ := ⟨_, rfl⟩
      have houter₁ : Outer t s₁ := by
        rw [← hs₁]
        exact houter.same ⟨rfl, rfl, rfl, rfl, rfl⟩
      have hhead₁ : Head t s₁ := by
        rw [← hs₁]
        exact h.head
      have hqueue₁ : s₁.queue = r :: rest := by
        rw [← hs₁]
        exact hqueue
      have hended₁ : s₁.ended = s.ended := by rw [← hs₁]
      have hresult : s' = (s₁.badRwIntr nullErrors).call := by
        rw [← hs₁]
        exact (Option.some.inj hs').symm
      obtain ⟨houter₂, hhead₂, hwell, hbusy⟩ := badRwIntr_outer houter₁ hhead₁ hqueue₁ nullErrors
      rw [hresult]
      refine ⟨Inv.call houter₂ hhead₂ ?_, ?_⟩
      · rw [hbusy, ← hs₁]
      · rw [NotWell, hended₁] at hwell
        exact hwell

/-- A pass keeps the invariant. -/
theorem Inv.pass (ht : t.Valid) (h : Inv t s) (hrequesting : s.requesting = true)
    {ready drq : Bool} {nullErrors : ℕ} (hs' : s.pass t ready drq nullErrors = some s') :
    Inv t s' ∧ NotWell s s' := by
  have hidle := h.control.requesting hrequesting
  rw [HardDisk.pass] at hs'
  split at hs'
  · next hqueue =>
    cases hs'
    refine ⟨⟨h.outer.same ⟨rfl, rfl, rfl, rfl, rfl⟩, h.head, fun _ => hidle, fun _ => hidle, ?_⟩,
      Or.inl rfl⟩
    intro _ r rest hr
    exact absurd (hqueue.symm.trans hr).symm (List.cons_ne_nil r rest)
  · next r rest hqueue =>
    dsimp only at hs'
    split_ifs at hs' with hrange hdivide hreset hrecalibrate
    · cases hs'
      obtain ⟨houter, hhead, hended⟩ := h.outer.endRequest hqueue false
      have hend := endRequest_cons hqueue false
      refine ⟨⟨houter, hhead, ?_, ?_, ?_⟩, Or.inr ⟨r, hended⟩⟩
      · rw [hend]
        exact fun _ => hidle
      · rw [hend]
        exact fun _ => hidle
      · rw [hend]
        exact fun hfalse => absurd (hrequesting.symm.trans hfalse) Bool.false_ne_true.symm
    · exact h.other hs' hqueue
    · exact h.other hs' hqueue
    · apply h.issue hqueue rfl rfl rfl _ hs'
      intro hin k hk
      obtain ⟨hfirst, haddresses⟩ := hk.command_addresses ht hin hdivide rfl
      exact ⟨rfl, hfirst, haddresses⟩

/-- A failure is answered by the functions for the interrupts in one way. -/
theorem Inv.failed (houter : Outer t s) (hhead : Head t s) (hqueue : s.queue = r :: rest)
    (hbusy : s.busy = .idle) (nullErrors : ℕ) :
    Inv t (s.badRwIntr nullErrors).call ∧ NotWell s (s.badRwIntr nullErrors).call := by
  obtain ⟨houter', hhead', hwell, hbusy'⟩ := badRwIntr_outer houter hhead hqueue nullErrors
  exact ⟨Inv.call houter' hhead' (hbusy'.trans hbusy), hwell⟩

/-! #### A sector that is transferred -/

theorem slice_portRead_self (a : ℕ) : slice (s.portRead a).mem a = s.port := by
  funext i
  have hi := i.isLt
  change (if h : a ≤ a + i.val ∧ a + i.val < a + 512 then
    s.port ⟨a + i.val - a, sector_index h⟩ else s.mem (a + i.val)) = _
  rw [dif_pos ⟨Nat.le_add_right .., by omega⟩]
  congr 1
  apply Fin.ext
  exact Nat.add_sub_cancel_left ..

theorem slice_portRead_of_le {a b : ℕ} (h : b + 512 ≤ a) :
    slice (s.portRead a).mem b = slice s.mem b := by
  funext i
  have hi := i.isLt
  change (if h : a ≤ b + i.val ∧ b + i.val < a + 512 then
    s.port ⟨b + i.val - a, sector_index h⟩ else s.mem (b + i.val)) = _
  rw [dif_neg (by omega)]
  rfl

/-- What remains when a sector is done. -/
theorem AtHalf.sub (h : AtHalf r k) : sub32 r.nrSectors 1 = 1 - k := by
  have hk := h.le
  rw [h.nrSectors, sub32_eq (by omega) (by omega)]
  omega

/-- `CURRENT` when a sector is done and another is left. -/
theorem AtHalf.next (h : AtHalf r k) {r' : Request} (hbh : r'.bh = r.bh)
    (hsector : r'.sector = add32 r.sector 1) (hnr : r'.nrSectors = sub32 r.nrSectors 1)
    (hbuffer : r'.buffer = r.buffer + 512) (hmore : r'.nrSectors ≠ 0) : k = 0 ∧ AtHalf r' 1 := by
  have hsub := h.sub
  have hk : k = 0 := by omega
  subst hk
  refine ⟨rfl, Nat.le_refl 1, ?_, ?_, ?_⟩
  · rw [hsector, h.succ, hbh]
  · rw [hnr, hsub]
  · rw [hbuffer, h.buffer, hbh]

/-- The state after a sector has been transferred: there is another one, or the request ends. -/
structure Advanced (t : Tables) (s s₂ : HardDisk) (r' : Request) (rest : List Request) (k : ℕ) :
    Prop where
  outer : Outer t s₂
  queue : s₂.queue = r' :: rest
  ended : s₂.ended = s.ended
  requesting : s₂.requesting = false
  done : InPartition t r' → Done t s₂ r' (k + 1)

/-- The request ends. -/
theorem Advanced.ends {s₂ : HardDisk} {r' : Request} (h : Advanced t s s₂ r' rest 1)
    (hbusy : s₂.busy = .idle) :
    Inv t (s₂.endRequest true).call ∧ EndsWell t s (s₂.endRequest true).call := by
  obtain ⟨houter, hhead, hended⟩ := h.outer.endRequest h.queue true
  have hend := endRequest_cons h.queue true
  refine ⟨Inv.call houter hhead (by rw [hend]; exact hbusy), ?_⟩
  intro q hq hin
  change (s₂.endRequest true).ended = _ at hq
  rw [hended, h.ended] at hq
  obtain rfl : r' = q := congrArg Prod.fst (List.cons.inj hq).1
  have hdone := h.done hin
  rw [hend]
  exact hdone.transferred

/-- Another sector follows. -/
theorem Advanced.goes_on {s₂ : HardDisk} {r' : Request} (h : Advanced t s s₂ r' rest 0)
    (hhalf : AtHalf r' 1) {c : Command} {n : ℕ} (hbusy : s₂.busy = .transfer c n)
    (hserves : Serves t s₂ r' c n) : Inv t s₂ ∧ EndsWell t s s₂ := by
  refine ⟨⟨h.outer, ?_, ?_, ?_, ?_⟩, ?_⟩
  · intro q qs hq
    obtain ⟨rfl, rfl⟩ := List.cons.inj (h.queue.symm.trans hq)
    exact ⟨1, hhalf, h.done⟩
  · exact fun htrue => absurd (h.requesting.symm.trans htrue) Bool.false_ne_true
  · exact fun hnil => absurd (h.queue.symm.trans hnil) (List.cons_ne_nil _ _)
  · intro _ q qs hq
    obtain ⟨rfl, rfl⟩ := List.cons.inj (h.queue.symm.trans hq)
    exact Or.inr ⟨c, n, hbusy, hserves⟩
  · exact NotWell.endsWell (Or.inl h.ended)

theorem Serves.last {c : Command} {n : ℕ} (h : Serves t s r c n) (hk : AtHalf r k) :
    (if n + 1 = c.nsect then Busy.idle else .transfer c (n + 1)) =
      if k = 1 then .idle else .transfer c (n + 1) := by
  have hle := hk.le
  have hnr := hk.nrSectors
  have hnsect := h.nsect
  apply if_congr _ rfl rfl
  omega

/-- `r` is to be followed by `r'` when a sector is done. -/
structure Follows (r r' : Request) : Prop where
  id : r'.id = r.id
  dev : r'.dev = r.dev
  cmd : r'.cmd = r.cmd
  bh : r'.bh = r.bh

theorem Follows.sectorOf (h : Follows r r') (j : ℕ) : sectorOf t r' j = sectorOf t r j := by
  rw [Hd.sectorOf, Hd.sectorOf, h.dev, h.bh]

theorem Follows.inPartition (h : Follows r r') : InPartition t r' ↔ InPartition t r := by
  rw [InPartition, InPartition, h.dev, h.bh]

/-- The sector that has been read is in its half of the buffer. -/
theorem Done.read (h : Done t s r k) (hr : r.cmd = .read) (hf : Follows r r')
    (hbuffer : r.buffer = r.bh.data + 512 * k) {s₁ s₂ : HardDisk}
    (hmem : s₁.mem = s.mem) (hdisk : s₁.disk = s.disk)
    (hport : s₁.port = s.disk (r.dev / 5) (sectorOf t r k))
    (hmem₂ : s₂.mem = (s₁.portRead r.buffer).mem) (hdisk₂ : s₂.disk = s₁.disk) :
    Done t s₂ r' (k + 1) := by
  rw [Done, hr] at h
  rw [Done, hf.cmd, hr]
  intro j hj
  rw [hf.bh, hf.dev, hf.sectorOf, hmem₂, hdisk₂, hdisk, hbuffer]
  rcases Nat.lt_succ_iff_lt_or_eq.mp hj with hj | rfl
  · rw [slice_portRead_of_le (by omega), hmem]
    exact h j hj
  · rw [slice_portRead_self, hport]

/-- The sector that has been written has been acknowledged with its half of the buffer. -/
theorem Done.write (h : Done t s r k) (hr : r.cmd = .write) (hf : Follows r r')
    {s₂ : HardDisk} (hmem : s₂.mem = s.mem)
    (houtcomes : s₂.outcomes = ackOf t s.mem r k :: s.outcomes) : Done t s₂ r' (k + 1) := by
  have hack : ackOf t s₂.mem r' = ackOf t s.mem r := by
    funext j
    rw [ackOf, ackOf, hf.id, hf.dev, hf.sectorOf, hf.bh, hmem]
  rw [Done, hr] at h
  rw [Done, hf.cmd, hr]
  dsimp only at h ⊢
  rw [hack, hf.id, HardDisk.acks, houtcomes, List.range_succ, List.map_append, List.reverse_append,
    ← h, List.filter_cons_of_pos (by simp [ackOf])]
  rfl

/-- The data of a sector that has been read are taken over. -/
theorem Inv.readOk (h : Inv t s) (hrequesting : s.requesting = false)
    (hqueue : s.queue = r :: rest) {c : Command} {n : ℕ} (hbusy : s.busy = .transfer c n)
    (hserves : Serves t s r c n) (hr : r.cmd = .read) (nullErrors : ℕ) :
    Inv t (s.interrupt t true nullErrors) ∧ EndsWell t s (s.interrupt t true nullErrors) := by
  obtain ⟨k, hk, hdone⟩ := h.head r rest hqueue
  obtain ⟨o, ho⟩ : ∃ o : Outcome, ⟨c.request.id, c.drive, c.first t + n, true,
    s.disk c.drive (c.first t + n)⟩ = o := ⟨_, rfl⟩
  obtain ⟨s₁, hs₁⟩ : ∃ s₁ : HardDisk, { s with
    port := s.disk c.drive (c.first t + n)
    busy := if k = 1 then .idle else .transfer c (n + 1)
    outcomes := o :: s.outcomes
    doHd := .null } = s₁ := ⟨_, rfl⟩
  have hinterrupt : s.interrupt t true nullErrors = s₁.readIntr true nullErrors := by
    have hdoHd : s.doHd = .read := by
      rw [hserves.doHd, hr]
      rfl
    rw [interrupt_read hbusy hdoHd (hserves.cmd.trans hr), hserves.last hk, ho, hs₁]
  have hqueue₁ : s₁.queue = r :: rest := by
    rw [← hs₁]
    exact hqueue
  have hbusy₁ : s₁.busy = if k = 1 then .idle else .transfer c (n + 1) := by rw [← hs₁]
  have hport₁ : InPartition t r → s₁.port = s.disk (r.dev / 5) (sectorOf t r k) := by
    intro hin
    obtain ⟨hdrive, hfirst⟩ := hserves.place hin k hk
    rw [← hs₁, ← hdrive, ← hfirst]
  have houter₁ : Outer t s₁ := by
    rw [← hs₁]
    exact (h.outer.outcome hqueue (o := o) (by rw [← ho]; exact hserves.id)).same
      ⟨rfl, rfl, rfl, rfl, rfl⟩
  have hmem₁ : s₁.mem = s.mem := by rw [← hs₁]
  have hdisk₁ : s₁.disk = s.disk := by rw [← hs₁]
  have hended₁ : s₁.ended = s.ended := by rw [← hs₁]
  have hrequesting₁ : s₁.requesting = false := by
    rw [← hs₁]
    exact hrequesting
  obtain ⟨r', hr'⟩ : ∃ r' : Request, { r with
    errors := 0
    buffer := r.buffer + 512
    sector := add32 r.sector 1
    nrSectors := sub32 r.nrSectors 1 } = r' := ⟨_, rfl⟩
  have hf : Follows r r' := by
    rw [← hr']
    exact ⟨rfl, rfl, rfl, rfl⟩
  have hnr' : r'.nrSectors = sub32 r.nrSectors 1 := by rw [← hr']
  have hadvanced (handler : Handler) : Advanced t s
      { s₁.portRead r.buffer with queue := r' :: rest, doHd := handler } r' rest k := by
    refine ⟨?_, rfl, hended₁, hrequesting₁, ?_⟩
    · exact (houter₁.replace hqueue₁ hf.id).same ⟨rfl, rfl, rfl, rfl, rfl⟩
    · intro hin
      have hin' := hf.inPartition.mp hin
      exact (hdone hin').read hr hf hk.buffer hmem₁ hdisk₁ (hport₁ hin') rfl rfl
  have hread : s₁.readIntr true nullErrors =
      if r'.nrSectors ≠ 0 then
        { s₁.portRead r.buffer with queue := r' :: rest, doHd := .read }
      else
        (({ s₁.portRead r.buffer with queue := r' :: rest } : HardDisk).endRequest true).call := by
    rw [HardDisk.readIntr, if_pos rfl, hqueue₁, ← hr']
  rw [hinterrupt, hread]
  split_ifs with hmore
  · have hhalf := hk.next hf.bh (by rw [← hr']) hnr' (by rw [← hr']) hmore
    obtain rfl := hhalf.1
    apply (hadvanced .read).goes_on hhalf.2 (c := c) (n := n + 1) hbusy₁
    refine ⟨?_, ?_, ?_, ?_, ?_, ?_⟩
    · rw [hf.cmd, hr]
      rfl
    · rw [hserves.cmd, hf.cmd]
    · rw [hserves.id, hf.id]
    · rw [hserves.nsect, hnr', hk.sub, hk.nrSectors]
    · rw [hf.cmd, hr]
      exact fun hwrite => absurd hwrite (by decide)
    · intro hin k' hk'
      obtain ⟨hdrive, hfirst⟩ := hserves.place (hf.inPartition.mp hin) 0 hk
      have hone : k' = 1 := by
        have h1 := hk'.nrSectors
        have h2 := hhalf.2.nrSectors
        have h3 := hk'.le
        omega
      rw [hf.dev, hf.sectorOf, hone]
      refine ⟨hdrive, ?_⟩
      rw [← Nat.add_assoc, hfirst]
      rfl
  · have hone : k = 1 := by
      have hle := hk.le
      have hsub := hk.sub
      omega
    subst hone
    exact (hadvanced s₁.doHd).ends hbusy₁

/-- A sector that has been written is acknowledged, and the data of the next one are given. -/
theorem Inv.writeOk (h : Inv t s) (hrequesting : s.requesting = false)
    (hqueue : s.queue = r :: rest) {c : Command} {n : ℕ} (hbusy : s.busy = .transfer c n)
    (hserves : Serves t s r c n) (hr : r.cmd = .write) (nullErrors : ℕ) :
    Inv t (s.interrupt t true nullErrors) ∧ EndsWell t s (s.interrupt t true nullErrors) := by
  obtain ⟨k, hk, hdone⟩ := h.head r rest hqueue
  obtain ⟨o, ho⟩ : ∃ o : Outcome, ⟨c.request.id, c.drive, c.first t + n, true, s.port⟩ = o :=
    ⟨_, rfl⟩
  obtain ⟨disk, hdisk⟩ : ∃ disk, Function.update s.disk c.drive
    (Function.update (s.disk c.drive) (c.first t + n) s.port) = disk := ⟨_, rfl⟩
  obtain ⟨s₁, hs₁⟩ : ∃ s₁ : HardDisk, { s with
    disk := disk
    busy := if k = 1 then .idle else .transfer c (n + 1)
    outcomes := o :: s.outcomes
    doHd := .null } = s₁ := ⟨_, rfl⟩
  have hinterrupt : s.interrupt t true nullErrors = s₁.writeIntr true nullErrors := by
    have hdoHd : s.doHd = .write := by
      rw [hserves.doHd, hr]
      rfl
    rw [interrupt_write hbusy hdoHd (hserves.cmd.trans hr), hserves.last hk, ho, hdisk, hs₁]
  have hqueue₁ : s₁.queue = r :: rest := by
    rw [← hs₁]
    exact hqueue
  have hbusy₁ : s₁.busy = if k = 1 then .idle else .transfer c (n + 1) := by rw [← hs₁]
  have hack : InPartition t r → s₁.outcomes = ackOf t s.mem r k :: s.outcomes := by
    intro hin
    obtain ⟨hdrive, hfirst⟩ := hserves.place hin k hk
    rw [← hs₁, ← ho, ackOf, ← hk.buffer, ← hserves.port hr, ← hserves.id, ← hdrive, ← hfirst]
  have houter₁ : Outer t s₁ := by
    rw [← hs₁]
    exact (h.outer.outcome hqueue (o := o) (by rw [← ho]; exact hserves.id)).same
      ⟨rfl, rfl, rfl, rfl, rfl⟩
  have hmem₁ : s₁.mem = s.mem := by rw [← hs₁]
  have hended₁ : s₁.ended = s.ended := by rw [← hs₁]
  have hrequesting₁ : s₁.requesting = false := by
    rw [← hs₁]
    exact hrequesting
  have hadvanced (r' : Request) (port : Sector) (handler : Handler) (hf : Follows r r') :
      Advanced t s { s₁ with queue := r' :: rest, port := port, doHd := handler } r' rest k := by
    refine ⟨?_, rfl, hended₁, hrequesting₁, ?_⟩
    · exact (houter₁.replace hqueue₁ hf.id).same ⟨rfl, rfl, rfl, rfl, rfl⟩
    · intro hin
      have hin' := hf.inPartition.mp hin
      exact (hdone hin').write hr hf hmem₁ (hack hin')
  rw [hinterrupt, HardDisk.writeIntr, if_pos rfl, hqueue₁]
  dsimp only
  obtain ⟨nr, hnr⟩ : ∃ nr, sub32 r.nrSectors 1 = nr := ⟨_, rfl⟩
  obtain ⟨sector, hsector⟩ : ∃ sector, add32 r.sector 1 = sector := ⟨_, rfl⟩
  rw [hnr, hsector]
  split_ifs with hmore
  · obtain ⟨r', hr'⟩ : ∃ r' : Request, { r with
      nrSectors := nr
      sector := sector
      buffer := r.buffer + 512 } = r' := ⟨_, rfl⟩
    have hf : Follows r r' := by
      rw [← hr']
      exact ⟨rfl, rfl, rfl, rfl⟩
    have hnr' : r'.nrSectors = nr := by rw [← hr']
    have hhalf := hk.next hf.bh (by rw [← hr', hsector]) (by rw [hnr', hnr]) (by rw [← hr'])
      (by rw [hnr']; exact hmore)
    obtain rfl := hhalf.1
    have hbuffer : r'.buffer = r.buffer + 512 := by rw [← hr']
    have hresult : ({ s₁.portWrite (r.buffer + 512) with
        queue := { r with nrSectors := nr, sector := sector, buffer := r.buffer + 512 } :: rest
        doHd := .write } : HardDisk) =
        { s₁ with queue := r' :: rest, port := slice s₁.mem r'.buffer, doHd := .write } := by
      rw [hr', hbuffer]
      rfl
    rw [hresult]
    apply (hadvanced r' _ .write hf).goes_on hhalf.2 (c := c) (n := n + 1) hbusy₁
    refine ⟨?_, ?_, ?_, ?_, fun _ => rfl, ?_⟩
    · rw [hf.cmd, hr]
      rfl
    · rw [hserves.cmd, hf.cmd]
    · rw [hserves.id, hf.id]
    · rw [hserves.nsect, hnr', ← hnr, hk.sub, hk.nrSectors]
    · intro hin k' hk'
      obtain ⟨hdrive, hfirst⟩ := hserves.place (hf.inPartition.mp hin) 0 hk
      have hone : k' = 1 := by
        have h1 := hk'.nrSectors
        have h2 := hhalf.2.nrSectors
        have h3 := hk'.le
        omega
      rw [hf.dev, hf.sectorOf, hone]
      refine ⟨hdrive, ?_⟩
      rw [← Nat.add_assoc, hfirst]
      rfl
  · have hone : k = 1 := by
      have hle := hk.le
      have hsub := hk.sub
      omega
    subst hone
    have hf : Follows r { r with nrSectors := nr } := ⟨rfl, rfl, rfl, rfl⟩
    exact (hadvanced _ s₁.port s₁.doHd hf).ends hbusy₁

/-- A failure that is recorded leaves what is done. -/
theorem Head.failed (h : Head t s) {o : Outcome} (ho : o.ok = false) {s₁ : HardDisk}
    (hqueue : s₁.queue = s.queue) (hmem : s₁.mem = s.mem) (hdisk : s₁.disk = s.disk)
    (houtcomes : s₁.outcomes = o :: s.outcomes) : Head t s₁ := by
  intro r rest hr
  rw [hqueue] at hr
  obtain ⟨k, hk, hdone⟩ := h r rest hr
  refine ⟨k, hk, fun hin => ?_⟩
  have hdone' := hdone hin
  rw [Done] at hdone' ⊢
  cases hcmd : r.cmd with
  | read =>
    rw [hcmd] at hdone'
    rw [hmem, hdisk]
    exact hdone'
  | write =>
    rw [hcmd] at hdone'
    dsimp only at hdone' ⊢
    rw [hmem, HardDisk.acks, houtcomes, List.filter_cons_of_neg (by simp [ho])]
    exact hdone'

/-- An interrupt of the controller keeps the invariant. -/
theorem Inv.interrupt (h : Inv t s) (hrequesting : s.requesting = false)
    (hbusy : s.busy ≠ .idle) (ok : Bool) (nullErrors : ℕ) :
    Inv t (s.interrupt t ok nullErrors) ∧ EndsWell t s (s.interrupt t ok nullErrors) := by
  cases hqueue : s.queue with
  | nil => exact absurd (h.control.empty hqueue) hbusy
  | cons r rest =>
    rcases h.control.linked hrequesting r rest hqueue with ⟨hother, hrecal⟩ | ⟨c, n, hc, hserves⟩
    · obtain ⟨s₁, hs₁⟩ : ∃ s₁ : HardDisk,
        { s with busy := .idle, doHd := .null } = s₁ := ⟨_, rfl⟩
      have hinterrupt : s.interrupt t ok nullErrors = s₁.recalIntr ok nullErrors := by
        rw [interrupt_other hother hrecal, hs₁]
      have houter₁ : Outer t s₁ := by
        rw [← hs₁]
        exact h.outer.same ⟨rfl, rfl, rfl, rfl, rfl⟩
      have hhead₁ : Head t s₁ := by
        rw [← hs₁]
        exact h.head
      have hqueue₁ : s₁.queue = r :: rest := by
        rw [← hs₁]
        exact hqueue
      have hidle₁ : s₁.busy = .idle := by rw [← hs₁]
      have hended₁ : s₁.ended = s.ended := by rw [← hs₁]
      rw [hinterrupt, HardDisk.recalIntr]
      split_ifs
      · exact ⟨Inv.call houter₁ hhead₁ hidle₁, NotWell.endsWell (Or.inl hended₁)⟩
      · obtain ⟨hinv, hwell⟩ := Inv.failed houter₁ hhead₁ hqueue₁ hidle₁ nullErrors
        rw [NotWell, hended₁] at hwell
        exact ⟨hinv, NotWell.endsWell hwell⟩
    · cases ok with
      | true =>
        cases hr : r.cmd with
        | read => exact h.readOk hrequesting hqueue hc hserves hr nullErrors
        | write => exact h.writeOk hrequesting hqueue hc hserves hr nullErrors
      | false =>
        have hdoHd : s.doHd = .read ∨ s.doHd = .write := by
          rw [hserves.doHd]
          cases r.cmd
          · exact Or.inl rfl
          · exact Or.inr rfl
        obtain ⟨data, hinterrupt⟩ := interrupt_failed (t := t) hc hdoHd nullErrors
        obtain ⟨o, ho⟩ : ∃ o : Outcome, ⟨c.request.id, c.drive, c.first t + n, false, data⟩ = o :=
          ⟨_, rfl⟩
        rw [ho] at hinterrupt
        obtain ⟨s₁, hs₁⟩ : ∃ s₁ : HardDisk,
          { s with busy := .idle, outcomes := o :: s.outcomes, doHd := .null } = s₁ := ⟨_, rfl⟩
        rw [hs₁] at hinterrupt
        have houter₁ : Outer t s₁ := by
          rw [← hs₁]
          exact (h.outer.outcome hqueue (o := o) (by rw [← ho]; exact hserves.id)).same
            ⟨rfl, rfl, rfl, rfl, rfl⟩
        have hhead₁ : Head t s₁ := by
          rw [← hs₁]
          exact h.head.failed (o := o) (by rw [← ho]) rfl rfl rfl rfl
        have hqueue₁ : s₁.queue = r :: rest := by
          rw [← hs₁]
          exact hqueue
        have hended₁ : s₁.ended = s.ended := by rw [← hs₁]
        obtain ⟨hinv, hwell⟩ := Inv.failed houter₁ hhead₁ hqueue₁ (by rw [← hs₁]) nullErrors
        rw [hinterrupt]
        rw [NotWell, hended₁] at hwell
        exact ⟨hinv, NotWell.endsWell hwell⟩

end Steps

end LihaLinux.Hd
