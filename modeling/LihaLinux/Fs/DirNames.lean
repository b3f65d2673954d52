import LihaLinux.Fs.DirBlocks

/-!
# Names in every run

A call looks for its name first and stores it later, with sleeps in between, and looks no second
time. As long as no call stores a name that another call has stored since the first one has begun
to look, no read of `find_entry` fails, and the calls of `create_block` do not race, all names in
the directory are different and no entry is handed out twice. Two calls that look for one name at
the same time both store it.
-/

namespace LihaLinux.Fs

namespace DirSystem

variable {τ : Type*} [DecidableEq τ]

/-! ### The condition -/

/-- A call is in `find_entry`, where a read can fail. -/
def looks (c : DirCall) : Bool :=
  match c.pos with
  | .find _ _ | .bread _ _ _ _ => true
  | _ => false

/-- A call is about to take an entry. -/
def takes (s : DirSystem τ) (c : DirCall) : Bool :=
  match c.pos with
  | .add i b => (s.freeEntry i b).isSome
  | _ => false

/-- The events after which a name can be stored twice: a call stores a name that another call has
stored since the first one has begun to look for it, the read of a block fails in `find_entry`, or
two calls of `create_block` race. -/
def Races (s : DirSystem τ) : DirEvent τ → Prop
  | .run t => s.bmap.Races (.run t) ∨
      ∃ c ∈ s.call t, s.takes c = true ∧ padName c.name ∈ c.since
  | .readError t => ∃ c ∈ s.call t, looks c = true
  | _ => False

/-- The steps that the condition allows. -/
def CarefulStep (sb : ZoneSuper) (s s' : DirSystem τ) : Prop :=
  ∃ e, s.next sb e = some s' ∧ ¬s.Races e

/-! ### Entries -/

/-- The directory has an entry with an inode number. -/
def Live (s : DirSystem τ) (p : ℕ) (e : DirEntry) : Prop :=
  ∃ b, s.bmap.zones.At (p / dirEntries) b ∧ s.entry b (p % dirEntries) = e ∧ e.inode ≠ 0

/-- All names are different. -/
def UniqueNames (s : DirSystem τ) : Prop :=
  ∀ p p' e e', s.Live p e → s.Live p' e' → e.name = e'.name → p = p'

/-- A directory before the calls: a multiple of 16 bytes, without an entry behind them, all names
different, `.` among them, and no calls. -/
structure Start (sb : ZoneSuper) (s : DirSystem τ) : Prop where
  bmap : s.bmap.Start sb
  zone : s.bmap.zones.zone 0 ≠ 0
  size : 16 ∣ s.size
  bound : ∀ p e, s.Live p e → 16 * p < s.size
  unique : s.UniqueNames
  dot : ∃ p e, s.Live p e ∧ e.name = padName [46]
  call : ∀ t, s.call t = none
  given : s.given = []

/-- The entries from `n` on are those that the call has not seen yet. -/
def Seen (s : DirSystem τ) (c : DirCall) (n : ℕ) : Prop :=
  ∀ p e, s.Live p e → matchName c.look e = true → e.name ∉ c.since → n ≤ p ∧ p < c.entries

/-- Where a call stands. -/
def PosOk (s : DirSystem τ) (t : τ) (c : DirCall) : DirPos → Prop
  | .find k b => s.Seen c (dirEntries * k) ∧ s.bmap.zones.At k b
  | .next k => s.Seen c (dirEntries * k)
  | .bread k z a ks => s.Seen c (dirEntries * k) ∧ k < maxBlock ∧ z ≠ 0 ∧
      ∃ x, s.bmap.zones.OnPath k x (a :: ks) ∧ s.bmap.zones.get x = z
  | .brelse k i ks => k < maxBlock ∧ (i = 0 ∧ s.Seen c (dirEntries * (k + 1)) ∨
      i ≠ 0 ∧ s.Seen c (dirEntries * k) ∧
        ∃ x, s.bmap.zones.OnPath k x ks ∧ s.bmap.zones.get x = i)
  | .make | .made => s.Seen c c.entries
  | .add i b => s.Seen c c.entries ∧ dirEntries ∣ i ∧ s.bmap.zones.At (i / dirEntries) b
  | .create i => s.Seen c c.entries ∧ dirEntries ∣ i ∧
      ∃ f, s.bmap.call t = some (i / dirEntries, f)

/-- What is known of a call. -/
structure Ok (s : DirSystem τ) (t : τ) (c : DirCall) : Prop where
  num : c.num ≠ 0
  look : c.look = c.name ∨ c.look = [46]
  dot : padName [46] ∉ c.since
  pos : s.PosOk t c c.pos

/-- No task is inside `create_block`. -/
def Outside (c : Option DirCall) : Prop := ∀ d ∈ c, ∀ i, d.pos ≠ .create i

/-- The invariant of the directory. -/
structure Inv (sb : ZoneSuper) (s : DirSystem τ) : Prop where
  bmap : ∃ z, s.bmap.Inv sb z
  zone : s.bmap.zones.zone 0 ≠ 0
  size : 16 ∣ s.size
  bound : ∀ p e, s.Live p e → 16 * p < s.size
  unique : s.UniqueNames
  dot : ∃ p e, s.Live p e ∧ e.name = padName [46]
  given : ∀ p ∈ s.given, ∃ e, s.Live p e
  nodup : s.given.Nodup
  blank : ∀ t j, s.bmap.Stores t j → ∀ i, (s.entry j i).inode = 0
  call : ∀ t, ∀ c ∈ s.call t, s.Ok t c
  outside : ∀ t, Outside (s.call t) → s.bmap.call t = none

variable {sb : ZoneSuper} {s s' : DirSystem τ} {t : τ} {c : DirCall}

/-- A name that `add_entry` has stored is found by `match`. -/
theorem matchName_padName {name : List ℕ} {e : DirEntry} (hinode : e.inode ≠ 0)
    (h : e.name = padName name) : matchName name e = true := by
  unfold matchName
  rw [Bool.and_eq_true, decide_eq_true_eq, decide_eq_true_eq]
  refine ⟨hinode, fun i hi => ?_, fun i _ => ?_⟩
  · rw [h, padName, hi, List.getD_eq_getElem?_getD, List.getElem?_eq_none (Nat.le_refl _)]
    rfl
  · rw [h, padName]

omit [DecidableEq τ] in
theorem Seen.mono {m n : ℕ} (h : s.Seen c n) (hmn : m ≤ n) : s.Seen c m := by
  intro p e hlive hmatch hsince
  obtain ⟨hn, hp⟩ := h p e hlive hmatch hsince
  exact ⟨by omega, hp⟩

omit [DecidableEq τ] in
/-- After the last entry nothing is left. -/
theorem Seen.all {n m : ℕ} (h : s.Seen c n) (hn : c.entries ≤ n) : s.Seen c m := by
  intro p e hlive hmatch hsince
  obtain ⟨hle, hp⟩ := h p e hlive hmatch hsince
  omega

omit [DecidableEq τ] in
/-- `find_entry` has found nothing: who has the name has stored it since. -/
theorem Seen.missed {p : ℕ} {e : DirEntry} (h : s.Seen c c.entries) (hlive : s.Live p e)
    (hmatch : matchName c.look e = true) : e.name ∈ c.since := by
  by_contra hsince
  obtain ⟨hle, hp⟩ := h p e hlive hmatch hsince
  omega

omit [DecidableEq τ] in
/-- A call that has found nothing has looked for its own name. -/
theorem Inv.look_eq (hi : s.Inv sb) (hok : s.Ok t c) (hseen : s.Seen c c.entries) :
    c.look = c.name := by
  rcases hok.look with hlook | hlook
  · exact hlook
  · obtain ⟨p, e, hlive, hname⟩ := hi.dot
    have hinode : e.inode ≠ 0 := hlive.choose_spec.2.2
    have hmem := hseen.missed hlive (hlook ▸ matchName_padName hinode hname)
    rw [hname] at hmem
    exact absurd hmem hok.dot

omit [DecidableEq τ] in
/-- A walk that ends at an empty slot comes to no block. -/
theorem not_at_of_zero {w : Zones} {k b : ℕ} {x : Slot} {ks : List ℕ} (hpath : w.OnPath k x ks)
    (hx : w.get x = 0) : ¬w.At k b := by
  rintro ⟨-, hb, y, hy, rfl⟩
  cases ks with
  | nil =>
    obtain ⟨rfl, -⟩ := hpath.unique hy rfl
    exact hb hx
  | cons a ks => exact hy.full hpath (by simp) hx

omit [DecidableEq τ] in
/-- `find_entry` passes over a block that is not there. -/
theorem Seen.skip {k : ℕ} (h : s.Seen c (dirEntries * k)) (hnone : ∀ b, ¬s.bmap.zones.At k b) :
    s.Seen c (dirEntries * (k + 1)) := by
  intro p e hlive hmatch hsince
  obtain ⟨hle, hp⟩ := h p e hlive hmatch hsince
  refine ⟨?_, hp⟩
  by_contra hlt
  obtain ⟨b, hb, -⟩ := hlive
  have hk : p / dirEntries = k := by
    unfold dirEntries at *
    omega
  exact hnone b (hk ▸ hb)

omit [DecidableEq τ] in
theorem posOk_toBlock {k : ℕ} (h : s.Seen c (dirEntries * k)) : s.PosOk t c (toBlock c k) := by
  unfold toBlock
  split_ifs with hk
  · exact h
  · exact h.all (by omega)

omit [DecidableEq τ] in
theorem posOk_descend {k z : ℕ} {x : Slot} {ks : List ℕ} (hk : k < maxBlock)
    (h : s.Seen c (dirEntries * k)) (hpath : s.bmap.zones.OnPath k x ks)
    (hx : s.bmap.zones.get x = z) : s.PosOk t c (descend c k z ks) := by
  by_cases hz : z = 0
  · have hskip := h.skip fun b => not_at_of_zero (b := b) hpath (hx.trans hz)
    cases ks <;> simpa only [descend, if_pos hz] using posOk_toBlock hskip
  · cases ks with
    | nil =>
      rw [descend, if_neg hz]
      exact ⟨h, hk, hz, x, hpath, hx⟩
    | cons a ks =>
      rw [descend, if_neg hz]
      exact ⟨h, hk, hz, x, hpath, hx⟩

/-! ### Steps that change no entry -/

omit [DecidableEq τ] in
theorem Seen.congr {n : ℕ} (h : s.Seen c n) (hlive : ∀ p e, s'.Live p e → s.Live p e) :
    s'.Seen c n := fun p e he => h p e (hlive p e he)

omit [DecidableEq τ] in
/-- A call that does not step stands where it has stood. -/
theorem PosOk.congr {F : ℕ → Prop} {d : DirCall} {pos : DirPos} (h : s.PosOk t c pos)
    (hadv : Zones.Advances s.bmap.zones s'.bmap.zones F)
    (hseen : ∀ n, s.Seen c n → s'.Seen d n) (hentries : d.entries = c.entries)
    (hcall : s'.bmap.call t = s.bmap.call t) : s'.PosOk t d pos := by
  cases pos with
  | find k b => exact ⟨hseen _ h.1, hadv.at h.2⟩
  | next k => exact hseen _ h
  | bread k z a ks =>
    obtain ⟨hold, hk, hz, x, hpath, hx⟩ := h
    exact ⟨hseen _ hold, hk, hz, x, hadv.path k x _ hk hpath,
      (hadv.get x ⟨k, _, hk, hpath⟩ (hx ▸ hz)).trans hx⟩
  | brelse k i ks =>
    obtain ⟨hk, ⟨h0, hold⟩ | ⟨h0, hold, x, hpath, hx⟩⟩ := h
    · exact ⟨hk, Or.inl ⟨h0, hseen _ hold⟩⟩
    · exact ⟨hk, Or.inr ⟨h0, hseen _ hold, x, hadv.path k x _ hk hpath,
        (hadv.get x ⟨k, _, hk, hpath⟩ (hx ▸ h0)).trans hx⟩⟩
  | make =>
    have hnew : s'.Seen d c.entries := hseen _ h
    rwa [← hentries] at hnew
  | made =>
    have hnew : s'.Seen d c.entries := hseen _ h
    rwa [← hentries] at hnew
  | add i b => exact ⟨hentries ▸ hseen _ h.1, h.2.1, hadv.at h.2.2⟩
  | create i => exact ⟨hentries ▸ hseen _ h.1, h.2.1, hcall ▸ h.2.2⟩

omit [DecidableEq τ] in
/-- A step that changes no entry. -/
theorem Inv.congr {F : ℕ → Prop} (hi : s.Inv sb) (hbmap : ∃ z, s'.bmap.Inv sb z)
    (hadv : Zones.Advances s.bmap.zones s'.bmap.zones F) (hsize : s'.size = s.size)
    (hgiven : s'.given = s.given) (hlive : ∀ p e, s'.Live p e ↔ s.Live p e)
    (hblank : ∀ u j, s'.bmap.Stores u j → ∀ i, (s'.entry j i).inode = 0)
    (hbcall : ∀ u, u ≠ t → s'.bmap.call u = s.bmap.call u)
    (hcall : ∀ u, u ≠ t → s'.call u = s.call u) (hown : ∀ d ∈ s'.call t, s'.Ok t d)
    (hout : Outside (s'.call t) → s'.bmap.call t = none) : s'.Inv sb := by
  refine ⟨hbmap, ?_, hsize ▸ hi.size, ?_, ?_, ?_, ?_, hgiven ▸ hi.nodup, hblank, ?_, ?_⟩
  · have hpath : s.bmap.zones.OnPath 0 (.izone 0) [] := .start
    have hget := hadv.get _ ⟨0, [], by decide, hpath⟩ hi.zone
    exact fun h => hi.zone (hget.symm.trans h)
  · exact fun p e he => hsize ▸ hi.bound p e ((hlive p e).mp he)
  · exact fun p p' e e' he he' => hi.unique p p' e e' ((hlive p e).mp he) ((hlive p' e').mp he')
  · obtain ⟨p, e, he, hname⟩ := hi.dot
    exact ⟨p, e, (hlive p e).mpr he, hname⟩
  · intro p hp
    obtain ⟨e, he⟩ := hi.given p (hgiven ▸ hp)
    exact ⟨e, (hlive p e).mpr he⟩
  · intro u d hd
    by_cases hut : u = t
    · subst hut
      exact hown d hd
    · rw [hcall u hut] at hd
      have hok := hi.call u d hd
      exact ⟨hok.num, hok.look, hok.dot,
        hok.pos.congr hadv (fun _ h => h.congr fun p e => (hlive p e).mp) rfl (hbcall u hut)⟩
  · intro u hu
    by_cases hut : u = t
    · subst hut
      exact hout hu
    · rw [hcall u hut] at hu
      rw [hbcall u hut]
      exact hi.outside u hu

/-- A call goes on, or is over, and nothing else changes. -/
theorem Inv.setCall {o : Option DirCall} (hi : s.Inv sb) (hnone : s.bmap.call t = none)
    (ho : ∀ d ∈ o, s.Ok t d) : (s.setCall t o).Inv sb := by
  have hself : (s.setCall t o).call t = o := Function.update_self ..
  refine hi.congr (t := t) (F := fun _ => False) hi.bmap (.of_get fun _ _ => rfl) rfl rfl
    (fun _ _ => Iff.rfl) hi.blank (fun _ _ => rfl) (fun u hu => Function.update_of_ne hu ..) ?_ ?_
  · intro d hd
    rw [hself] at hd
    have hok := ho d hd
    exact ⟨hok.num, hok.look, hok.dot, hok.pos.congr (F := fun _ => False)
      (.of_get fun _ _ => rfl) (fun _ => id) rfl rfl⟩
  · exact fun _ => hnone

/-- A call that is not in `create_block` goes on to another place. -/
theorem Inv.goto {pos : DirPos} (hi : s.Inv sb) (hc : s.call t = some c)
    (hnone : s.bmap.call t = none) (hpos : s.PosOk t c pos) : (s.goto t c pos).Inv sb := by
  refine hi.setCall hnone fun d hd => ?_
  obtain rfl := Option.mem_some_iff.mp hd
  have hok := hi.call t c hc
  exact ⟨hok.num, hok.look, hok.dot, hpos⟩

omit [DecidableEq τ] in
/-- A call that is not in `create_block`. -/
theorem Inv.bmap_none (hi : s.Inv sb) (hc : s.call t = some c) (hpos : ∀ i, c.pos ≠ .create i) :
    s.bmap.call t = none := by
  refine hi.outside t fun d hd => ?_
  rw [hc] at hd
  obtain rfl := Option.mem_some_iff.mp hd
  exact hpos

/-! ### `find_entry` -/

omit [DecidableEq τ] in
/-- The loop of `find_entry` over a block. -/
theorem Seen.scan {k b : ℕ} (h : s.Seen c (dirEntries * k)) (hb : s.bmap.zones.At k b)
    (hfinds : s.finds c k b = false) : s.Seen c (dirEntries * (k + 1)) := by
  intro p e hlive hmatch hsince
  obtain ⟨hle, hp⟩ := h p e hlive hmatch hsince
  refine ⟨?_, hp⟩
  by_contra hlt
  obtain ⟨b', hb', rfl, -⟩ := hlive
  have hdiv : p / dirEntries = k := by
    unfold dirEntries at *
    omega
  have hmod : dirEntries * k + p % dirEntries = p := by
    rw [← hdiv]
    exact Nat.div_add_mod p dirEntries
  obtain rfl := hb.unique (hdiv ▸ hb')
  have hall := List.any_eq_false.mp hfinds (p % dirEntries)
    (List.mem_range.mpr (Nat.mod_lt _ (by decide)))
  rw [hmod, decide_eq_true hp, hmatch] at hall
  exact hall rfl

/-- A call comes to `find_entry`. -/
theorem Inv.start {name : List ℕ} {mkdir root : Bool} {num : ℕ} (hi : s.Inv sb)
    (h : s.next sb (.start t name mkdir root num) = some s') : s'.Inv sb := by
  rw [next] at h
  obtain ⟨⟨hnone, -, hnum⟩, h⟩ := Option.ite_none_right_eq_some.mp h
  rw [← Option.some.inj h]
  have hbmap : s.bmap.call t = none := by
    refine hi.outside t fun d hd => ?_
    rw [hnone] at hd
    exact absurd hd (by simp)
  refine hi.setCall hbmap fun d hd => ?_
  obtain rfl := Option.mem_some_iff.mp hd
  refine ⟨hnum, ?_, List.not_mem_nil, ?_⟩
  · dsimp only [lookName]
    split_ifs
    · exact Or.inr rfl
    · exact Or.inl rfl
  · dsimp only
    rw [if_neg hi.zone]
    refine ⟨fun p e hlive _ _ => ⟨by omega, ?_⟩, by decide, hi.zone, .izone 0, .start, rfl⟩
    have hlt := hi.bound p e hlive
    have hdvd := Nat.div_mul_cancel hi.size
    dsimp only
    omega

theorem Inv.addEntry (hi : s.Inv sb) (hc : s.call t = some c) (hnone : s.bmap.call t = none)
    (hseen : s.Seen c c.entries) : (s.addEntry t c).Inv sb := by
  rw [DirSystem.addEntry, if_neg hi.zone]
  exact hi.goto hc hnone ⟨hseen, Nat.dvd_zero _, by decide, hi.zone, .izone 0, .start, rfl⟩

/-! ### `sys_mkdir` -/

/-- A zone is taken for another inode. -/
def takeZone (b : BmapSystem τ) (k : ℕ) : BmapSystem τ := { b with zones := b.zones.setBit k }

omit [DecidableEq τ] in
/-- Another inode gets a zone. -/
theorem takeZone_inv {z : ℕ → Bool} {b : BmapSystem τ} {k : ℕ} (hb : b.Inv sb z) :
    (takeZone b k).Inv sb (Function.update z k true) := by
  have hget : ∀ y, (takeZone b k).zones.get y = b.zones.get y := fun y => Zones.get_setBit ..
  have hmono : ∀ l, b.zones.zmap l = true → (takeZone b k).zones.zmap l = true :=
    fun l hl => b.zones.setBit_mono k hl
  have hgrows : Grows sb b.zones (takeZone b k).zones b.Pending (takeZone b k).Pending :=
    ⟨fun l x ks hl h => h.congr hl fun y _ => hget y, fun x _ _ => hget x,
      fun hfull l hl hlt => hmono l (hfull l hl hlt),
      fun x _ h0 _ hx => ⟨(hget x).trans h0, hx⟩⟩
  refine ⟨hb.consistent.congr (fun y _ => hget y) hmono, ?_, hb.fills_inj, hb.zone_inj, ?_, ?_⟩
  · intro u d hd
    obtain ⟨hlt, hok, hholds⟩ := hb.call u d hd
    refine ⟨hlt, hgrows.ok hlt hok fun x hx => (hget x).trans (hok.of_fills hx).1, ?_⟩
    exact hholds.congr (fun y _ => hget y) (fun y hy => (hget y).trans hy) hmono
  · intro l hl
    by_cases hlk : l = k
    · subst hlk
      exact Or.inl (Function.update_self ..)
    · have hl' : b.zones.zmap l = true := by
        simpa only [takeZone, Zones.setBit, Function.update_of_ne hlk] using hl
      rw [Function.update_of_ne hlk]
      rcases hb.accounted l hl' with h | h | ⟨x, hx, heq, hne⟩ | h
      · exact Or.inl h
      · exact Or.inr (Or.inl h)
      · exact Or.inr (Or.inr (Or.inl
          ⟨x, (Zones.owns_congr fun y _ => hget y).mpr hx, (hget x).trans heq, hget x ▸ hne⟩))
      · exact Or.inr (Or.inr (Or.inr h))
  · exact fun r hr => ⟨(hb.returned r hr).1, hgrows.ends (hb.returned r hr).1 (hb.returned r hr).2⟩

omit [DecidableEq τ] in
/-- The directory and its entries after another inode has got the zone of bit `k`. -/
theorem Inv.takeZone {k : ℕ} {f : ℕ → ℕ → DirEntry} (hi : s.Inv sb)
    (hk : s.bmap.zones.zmap k = false) (hnone : s.bmap.call t = none)
    (hf : ∀ b, b ≠ k + sb.firstdatazone - 1 → f b = s.entry b) :
    Inv sb { s with bmap := DirSystem.takeZone s.bmap k, entry := f } := by
  obtain ⟨z, hb⟩ := hi.bmap
  have hfirst := hb.consistent.firstdatazone
  have hother : ∀ l, s.bmap.zones.zmap l = true →
      l + sb.firstdatazone - 1 ≠ k + sb.firstdatazone - 1 := by
    intro l hl heq
    have hlk : l = k := by omega
    rw [hlk, hk] at hl
    exact absurd hl (by decide)
  have hat : ∀ l b, s.bmap.zones.At l b → f b = s.entry b := by
    intro l b hlb
    obtain ⟨x, hx, rfl⟩ := hlb.owns
    obtain ⟨m, hm, hbit⟩ := hb.consistent.used x hx hlb.2.1
    exact hf _ (hm ▸ hother m hbit)
  have hadv : Zones.Advances s.bmap.zones (DirSystem.takeZone s.bmap k).zones fun _ => False :=
    .of_get fun _ _ => Zones.get_setBit ..
  have hlive : ∀ p e, Live { s with bmap := DirSystem.takeZone s.bmap k, entry := f } p e ↔
      s.Live p e := by
    intro p e
    constructor
    · rintro ⟨b, hlb, he, hinode⟩
      have hlb' : s.bmap.zones.At (p / dirEntries) b := (hadv.new _ b hlb).resolve_right id
      exact ⟨b, hlb', hat _ b hlb' ▸ he, hinode⟩
    · rintro ⟨b, hlb, he, hinode⟩
      exact ⟨b, hadv.at hlb, (congrFun (hat _ b hlb) _).trans he, hinode⟩
  refine hi.congr (t := t) ⟨_, takeZone_inv hb⟩ hadv rfl rfl hlive ?_ (fun _ _ => rfl)
    (fun _ _ => rfl) ?_ fun _ => hnone
  · rintro u j ⟨block, x, ks, hu⟩ i
    obtain ⟨-, -, htaken, -⟩ := hb.call u _ hu
    obtain ⟨⟨m, hm, hbit⟩, -⟩ := htaken
    dsimp only
    rw [hf j (hm ▸ hother m hbit)]
    exact hi.blank u j ⟨block, x, ks, hu⟩ i
  · intro d hd
    have hok := hi.call t d hd
    exact ⟨hok.num, hok.look, hok.dot,
      hok.pos.congr hadv (fun _ h => h.congr fun p e => (hlive p e).mp) rfl rfl⟩

theorem Inv.mkdirBlock (hi : s.Inv sb) (hc : s.call t = some c) (hpos : c.pos = .make) :
    (s.mkdirBlock sb t c).Inv sb := by
  have hnone := hi.bmap_none hc (by simp [hpos])
  unfold DirSystem.mkdirBlock
  split
  · exact hi.setCall hnone fun d hd => absurd hd (by simp)
  · rename_i k hk
    obtain ⟨-, -, hclear, -⟩ := firstZero_some hk
    dsimp only
    split_ifs
    · have hi' := hi.takeZone (t := t) (f := s.entry) hclear hnone fun _ _ => rfl
      exact hi'.setCall hnone fun d hd => absurd hd (by simp)
    · have hi' := hi.takeZone (t := t)
        (f := Function.update s.entry (k + sb.firstdatazone - 1) (dotEntries c.num s.num))
        hclear hnone fun b hb => Function.update_of_ne hb ..
      have hseen := (hi'.call t c hc).pos
      rw [hpos] at hseen
      exact hi'.goto hc hnone hseen

/-! ### `add_entry` -/

omit [DecidableEq τ] in
/-- An entry that `add_entry` takes is free. -/
theorem freeEntry_spec {i b j : ℕ} (h : s.freeEntry i b = some j) :
    j < dirEntries ∧ (s.size ≤ 16 * (i + j) ∨ (s.entry b j).inode = 0) := by
  have hfree := List.find?_some h
  rw [Bool.or_eq_true, decide_eq_true_eq, decide_eq_true_eq] at hfree
  exact ⟨List.mem_range.mp (List.mem_of_find?_eq_some h), hfree⟩

/-- The entries after one has been taken. -/
theorem live_store {i b j : ℕ} (hi : s.Inv sb) (hnum : c.num ≠ 0) (hdvd : dirEntries ∣ i)
    (hb : s.bmap.zones.At (i / dirEntries) b) (hj : j < dirEntries) {q : ℕ} {e : DirEntry} :
    (s.store t c i b j).Live q e ↔
      q = i + j ∧ e = ⟨c.num, padName c.name⟩ ∨ q ≠ i + j ∧ s.Live q e := by
  obtain ⟨z, hbmap⟩ := hi.bmap
  obtain ⟨k, rfl⟩ := hdvd
  unfold dirEntries at *
  have hdiv : (64 * k + j) / 64 = 64 * k / 64 := by omega
  have hmod : (64 * k + j) % 64 = j := by omega
  have hself : (s.store t c (64 * k) b j).entry b j = ⟨c.num, padName c.name⟩ := by
    simp only [DirSystem.store, setEntry, Function.update_self]
  have hother : ∀ {b' q : ℕ}, q ≠ 64 * k + j → s.bmap.zones.At (q / 64) b' →
      (s.store t c (64 * k) b j).entry b' (q % 64) = s.entry b' (q % 64) := by
    intro b' q hq hb'
    simp only [DirSystem.store, setEntry]
    by_cases hbb : b' = b
    · subst hbb
      have hindex := hb.index hbmap.consistent hb'
      rw [Function.update_self, Function.update_of_ne]
      omega
    · rw [Function.update_of_ne hbb]
  by_cases hq : q = 64 * k + j
  · subst hq
    simp only [true_and, not_true, ne_eq, false_and, or_false]
    constructor
    · rintro ⟨b', hb', he, -⟩
      unfold dirEntries at *
      rw [hdiv] at hb'
      obtain rfl := hb.unique hb'
      rw [hmod] at he
      exact he.symm.trans hself
    · rintro rfl
      refine ⟨b, ?_, ?_, hnum⟩
      · unfold dirEntries
        rw [hdiv]
        exact hb
      · unfold dirEntries
        rw [hmod]
        exact hself
  · simp only [hq, false_and, false_or, ne_eq, not_false_eq_true, true_and]
    constructor
    · rintro ⟨b', hb', he, hinode⟩
      exact ⟨b', hb', (hother hq hb').symm.trans he, hinode⟩
    · rintro ⟨b', hb', he, hinode⟩
      exact ⟨b', hb', (hother hq hb').trans he, hinode⟩

/-- A call takes an entry and stores the number in it. -/
theorem Inv.store {i b j : ℕ} (hi : s.Inv sb) (hc : s.call t = some c) (hpos : c.pos = .add i b)
    (hj : s.freeEntry i b = some j) (hsince : padName c.name ∉ c.since) :
    (s.store t c i b j).Inv sb := by
  obtain ⟨z, hbmap⟩ := hi.bmap
  have hok := hi.call t c hc
  have hplace := hok.pos
  rw [hpos] at hplace
  obtain ⟨hseen, hdvd, hb⟩ := hplace
  obtain ⟨hlt, hfree⟩ := freeEntry_spec hj
  have hlive := fun q e => live_store (t := t) (q := q) (e := e) hi hok.num hdvd hb hlt
  have hlook := hi.look_eq hok hseen
  -- nobody has the name
  have hnew : ∀ q e, s.Live q e → e.name ≠ padName c.name := by
    intro q e he hname
    have hmem := hseen.missed he
      (hlook ▸ matchName_padName he.choose_spec.2.2 hname)
    rw [hname] at hmem
    exact hsince hmem
  have hdead : ∀ e, ¬s.Live (i + j) e := by
    intro e he
    rcases hfree with hsize | hzero
    · have hbound := hi.bound _ e he
      omega
    · obtain ⟨b', hb', rfl, hinode⟩ := he
      obtain ⟨k, rfl⟩ := hdvd
      unfold dirEntries at *
      have hdiv : (64 * k + j) / 64 = 64 * k / 64 := by omega
      have hmod : (64 * k + j) % 64 = j := by omega
      rw [hdiv] at hb'
      obtain rfl := hb.unique hb'
      rw [hmod] at hinode
      exact hinode hzero
  refine ⟨hi.bmap, hi.zone, ?_, ?_, ?_, ?_, ?_, ?_, ?_, ?_, ?_⟩
  · dsimp only [DirSystem.store]
    split_ifs
    · exact Nat.dvd_mul_right ..
    · exact hi.size
  · intro q e he
    dsimp only [DirSystem.store]
    rcases (hlive q e).mp he with ⟨rfl, -⟩ | ⟨-, he⟩
    · split_ifs <;> omega
    · have hbound := hi.bound q e he
      split_ifs <;> omega
  · intro q q' e e' he he' hname
    rcases (hlive q e).mp he with ⟨rfl, rfl⟩ | ⟨-, he⟩
    · rcases (hlive q' e').mp he' with ⟨rfl, -⟩ | ⟨-, he'⟩
      · rfl
      · exact absurd hname.symm (hnew q' e' he')
    · rcases (hlive q' e').mp he' with ⟨rfl, rfl⟩ | ⟨-, he'⟩
      · exact absurd hname (hnew q e he)
      · exact hi.unique q q' e e' he he' hname
  · obtain ⟨q, e, he, hname⟩ := hi.dot
    refine ⟨q, e, (hlive q e).mpr (Or.inr ⟨?_, he⟩), hname⟩
    rintro rfl
    exact hdead e he
  · intro q hq
    rcases List.mem_cons.mp hq with rfl | hq
    · exact ⟨_, (hlive _ _).mpr (Or.inl ⟨rfl, rfl⟩)⟩
    · obtain ⟨e, he⟩ := hi.given q hq
      refine ⟨e, (hlive q e).mpr (Or.inr ⟨?_, he⟩)⟩
      rintro rfl
      exact hdead e he
  · refine List.nodup_cons.mpr ⟨fun hmem => ?_, hi.nodup⟩
    obtain ⟨e, he⟩ := hi.given _ hmem
    exact hdead e he
  · rintro u j' hstores a
    obtain ⟨block, x, ks, hu⟩ := hstores
    have htaken := (hbmap.call u _ hu).2.2.1
    have hne : j' ≠ b := by
      rintro rfl
      obtain ⟨y, hy, heq⟩ := hb.owns
      exact htaken.2.2 y hy heq
    simp only [DirSystem.store, setEntry, Function.update_of_ne hne]
    exact hi.blank u j' ⟨block, x, ks, hu⟩ a
  · intro u d' hd'
    dsimp only [DirSystem.store] at hd'
    split_ifs at hd' with hut
    · exact absurd hd' (by simp)
    · obtain ⟨d, hd, rfl⟩ := Option.map_eq_some_iff.mp hd'
      have hokd := hi.call u d hd
      refine ⟨hokd.num, hokd.look, ?_, ?_⟩
      · obtain ⟨q, e, he, hname⟩ := hi.dot
        intro hmem
        rcases List.mem_cons.mp hmem with heq | hmem
        · exact hnew q e he (hname.trans heq)
        · exact hokd.dot hmem
      · refine hokd.pos.congr (F := fun _ => False) (.of_get fun _ _ => rfl) ?_ rfl rfl
        intro n hold q e he hmatch hnot
        rw [List.mem_cons, not_or] at hnot
        rcases (hlive q e).mp he with ⟨-, rfl⟩ | ⟨-, he⟩
        · exact absurd rfl hnot.1
        · exact hold q e he hmatch hnot.2
  · intro u hu
    by_cases hut : u = t
    · subst hut
      exact hi.bmap_none hc (by simp [hpos])
    · refine hi.outside u fun d hd a => ?_
      have hd' : some { d with since := padName c.name :: d.since } =
          (s.store t c i b j).call u := by
        simp only [DirSystem.store, if_neg hut, Option.mem_def.mp hd, Option.map_some]
      exact hu _ hd'.symm a

/-! ### `create_block` in `add_entry` -/

/-- `add_entry` calls `create_block`. -/
theorem Inv.create {i : ℕ} (hi : s.Inv sb) (hc : s.call t = some c)
    (hnone : s.bmap.call t = none) (hseen : s.Seen c c.entries) (hdvd : dirEntries ∣ i)
    (h : s.create sb t c i = some s') : s'.Inv sb := by
  obtain ⟨b, hb, rfl⟩ := Option.map_eq_some_iff.mp h
  obtain ⟨z, hbmap⟩ := hi.bmap
  have hstep := hbmap.step ⟨_, hb, id⟩
  obtain ⟨-, hb⟩ := Option.ite_none_right_eq_some.mp hb
  have hok := hi.call t c hc
  rw [Option.some.injEq] at hb
  subst hb
  refine hi.congr (t := t) (F := fun _ => False) ⟨z, hstep⟩ (.of_get fun _ _ => rfl) rfl rfl
    (fun _ _ => Iff.rfl) ?_ (fun u hu => Function.update_of_ne hu ..)
    (fun u hu => Function.update_of_ne hu ..) ?_ ?_
  · rintro u j ⟨block, x, ks, hu⟩
    by_cases hut : u = t
    · subst hut
      simp [DirSystem.goto, DirSystem.setCall] at hu
    · refine hi.blank u j ⟨block, x, ks, ?_⟩
      rw [← hu]
      exact (Function.update_of_ne hut ..).symm
  · intro d hd
    have hself : d = { c with pos := .create i } := by
      simpa [DirSystem.goto, DirSystem.setCall] using hd.symm
    subst hself
    exact ⟨hok.num, hok.look, hok.dot, hseen, hdvd, _, Function.update_self ..⟩
  · intro hout
    exact absurd rfl (hout { c with pos := .create i } (by
      simp [DirSystem.goto, DirSystem.setCall]) i)

omit [DecidableEq τ] in
/-- Only `getblk` leads to the store of a new zone. -/
theorem exec_brelseNew {w w' : Zones} {f : Bmap} {x : Slot} {j : ℕ} {ks : List ℕ}
    (h : f.exec sb w = (w', .go (.brelseNew x j ks))) : ∃ l, f = .getblk x j l := by
  have hdescend : ∀ (i : ℕ) (l : List ℕ), Bmap.descend i l ≠ .go (.brelseNew x j ks) := by
    intro i l
    cases l with
    | nil => exact Bmap.Next.noConfusion
    | cons a l =>
      rw [Bmap.descend]
      split_ifs <;> simp
  have hassign : ∀ (v : Zones) (y : Slot) (m : ℕ) (l : List ℕ),
      (Bmap.assign v y m l).2 ≠ .go (.brelseNew x j ks) := by
    intro v y m l
    cases y with
    | izone n => exact hdescend m l
    | entry z a => simp [Bmap.assign]
  have h2 : (f.exec sb w).2 = .go (.brelseNew x j ks) := congrArg Prod.snd h
  cases f with
  | start block =>
    dsimp only [Bmap.exec] at h2
    split_ifs at h2
    · simp at h2
    · exact absurd h2 (hdescend _ _)
  | newBlock y l =>
    dsimp only [Bmap.exec] at h2
    split at h2
    · exact absurd h2 (hassign _ _ _ _)
    · split_ifs at h2
      · exact absurd h2 (hassign _ _ _ _)
      · simp at h2
  | getblk y m l =>
    simp only [Bmap.exec, Bmap.Next.go.injEq, Bmap.brelseNew.injEq] at h2
    obtain ⟨rfl, rfl, rfl⟩ := h2
    exact ⟨_, rfl⟩
  | brelseNew y m l => exact absurd h2 (hassign _ _ _ _)
  | bread z a l =>
    dsimp only [Bmap.exec] at h2
    split_ifs at h2 <;> simp at h2
  | brelse m l => exact absurd h2 (hdescend _ _)

omit [DecidableEq τ] in
/-- A step of `create_block` clears at most one block. -/
theorem cleared_cases (s : DirSystem τ) (t : τ) : s.cleared t = s.entry ∨
    ∃ block x j ks, s.bmap.call t = some (block, .getblk x j ks) ∧
      s.cleared t = Function.update s.entry j fun _ => .zero := by
  unfold cleared
  rcases s.bmap.call t with _ | ⟨block, f⟩
  · exact Or.inl rfl
  · cases f with
    | getblk x j ks => exact Or.inr ⟨block, x, j, ks, rfl, rfl⟩
    | _ => exact Or.inl rfl

omit [DecidableEq τ] in
/-- The blocks of the directory are not cleared. -/
theorem cleared_at {z : ℕ → Bool} {k b : ℕ} (hbmap : s.bmap.Inv sb z)
    (hb : s.bmap.zones.At k b) : s.cleared t b = s.entry b := by
  rcases s.cleared_cases t with heq | ⟨block, x, j, ks, hcall, heq⟩
  · rw [heq]
  · have htaken : Taken sb s.bmap.zones j := (hbmap.call t _ hcall).2.2
    obtain ⟨y, hy, rfl⟩ := hb.owns
    rw [heq]
    exact Function.update_of_ne (htaken.2.2 y hy) ..

omit [DecidableEq τ] in
/-- What has been cleared stays so. -/
theorem cleared_zero {b a : ℕ} (h : (s.entry b a).inode = 0) : (s.cleared t b a).inode = 0 := by
  rcases s.cleared_cases t with heq | ⟨block, x, j, ks, -, heq⟩
  · rw [heq]
    exact h
  · rw [heq]
    by_cases hbj : b = j
    · subst hbj
      rw [Function.update_self]
      rfl
    · rw [Function.update_of_ne hbj]
      exact h

/-- The directory after a step of `create_block`. -/
def stepped (s : DirSystem τ) (t : τ) (b : BmapSystem τ) (o : Option DirCall) : DirSystem τ :=
  { s with bmap := b, entry := s.cleared t }.setCall t o

theorem stepped_live {b : BmapSystem τ} {o : Option DirCall} (hi : s.Inv sb)
    (hb : s.bmap.next sb (.run t) = some b) (p : ℕ) (e : DirEntry) :
    (s.stepped t b o).Live p e ↔ s.Live p e := by
  obtain ⟨z, hbmap⟩ := hi.bmap
  have hadv := hbmap.advances hb
  constructor
  · rintro ⟨v, hv, rfl, hinode⟩
    rcases hadv.new _ v hv with hv' | hstores
    · exact ⟨v, hv', congrFun (cleared_at hbmap hv').symm _, hinode⟩
    · exact absurd (cleared_zero (hi.blank t v hstores _)) hinode
  · rintro ⟨v, hv, rfl, hinode⟩
    exact ⟨v, hadv.at hv, congrFun (cleared_at hbmap hv) _, hinode⟩

/-- A step of `create_block`, after which the call of the task is `o`. -/
theorem Inv.stepped {b : BmapSystem τ} {o : Option DirCall} (hi : s.Inv sb)
    (hb : s.bmap.next sb (.run t) = some b) (hrace : ¬s.bmap.Races (.run t))
    (ho : ∀ d ∈ o, (s.stepped t b o).Ok t d) (hout : Outside o → b.call t = none) :
    (s.stepped t b o).Inv sb := by
  obtain ⟨z, hbmap⟩ := hi.bmap
  have hself : (s.stepped t b o).call t = o := Function.update_self ..
  have hcalls : ∀ u, u ≠ t → b.call u = s.bmap.call u := by
    intro u hu
    obtain ⟨⟨block, f⟩, -, rfl⟩ := Option.map_eq_some_iff.mp hb
    exact BmapSystem.call_after_ne hu
  refine hi.congr (t := t) ⟨z, hbmap.step ⟨_, hb, hrace⟩⟩ (hbmap.advances hb) rfl rfl
    (stepped_live hi hb) ?_ hcalls (fun u hu => Function.update_of_ne hu ..) ?_ ?_
  · rintro u j ⟨block, x, ks, hu⟩ a
    by_cases hut : u = t
    · subst hut
      obtain ⟨⟨block', f⟩, hcall, rfl⟩ := Option.map_eq_some_iff.mp hb
      rcases hexec : f.exec sb s.bmap.zones with ⟨w, n⟩
      cases n with
      | go g =>
        have hgo : (s.bmap.after u block' (w, .go g)).call u = some (block', g) :=
          Function.update_self ..
        rw [DirSystem.stepped, DirSystem.setCall] at hu
        dsimp only at hu
        rw [hexec, hgo] at hu
        obtain ⟨rfl, rfl⟩ := Prod.mk.inj (Option.some.inj hu)
        obtain ⟨l, rfl⟩ := exec_brelseNew hexec
        dsimp only [DirSystem.stepped, DirSystem.setCall, cleared]
        rw [hcall]
        dsimp only
        rw [Function.update_self]
        rfl
      | ret i =>
        have hret : (s.bmap.after u block' (w, .ret i)).call u = none := Function.update_self ..
        rw [DirSystem.stepped, DirSystem.setCall] at hu
        dsimp only at hu
        rw [hexec, hret] at hu
        exact absurd hu (by simp)
    · refine cleared_zero (hi.blank u j ⟨block, x, ks, ?_⟩ a)
      rw [← hcalls u hut]
      exact hu
  · intro d hd
    rw [hself] at hd
    exact ho d hd
  · rw [hself]
    exact hout

/-- A call of `create_block` goes on. -/
theorem Inv.runCreate {i : ℕ} (hi : s.Inv sb) (hc : s.call t = some c) (hpos : c.pos = .create i)
    (hrace : ¬s.bmap.Races (.run t)) (h : s.runCreate sb t c i = some s') : s'.Inv sb := by
  obtain ⟨b, hb, hs'⟩ := Option.map_eq_some_iff.mp h
  obtain ⟨z, hbmap⟩ := hi.bmap
  have hok := hi.call t c hc
  have hplace := hok.pos
  rw [hpos] at hplace
  obtain ⟨hseen, hdvd, f, hcall⟩ := hplace
  have hseen' : ∀ o, (s.stepped t b o).Seen c c.entries :=
    fun o => hseen.congr fun p e => (stepped_live hi hb p e).mp
  have hinv : b.Inv sb z := hbmap.step ⟨_, hb, hrace⟩
  -- the call is over, or goes on for the same block
  have hover : (∃ g, b.call t = some (i / dirEntries, g)) ∨
      b.call t = none ∧ ∃ v l, b.returned = (i / dirEntries, v) :: l := by
    obtain ⟨⟨block, f'⟩, hcall', rfl⟩ := Option.map_eq_some_iff.mp hb
    obtain ⟨rfl, rfl⟩ := Prod.mk.inj (Option.some.inj (hcall.symm.trans hcall'))
    rcases hexec : f.exec sb s.bmap.zones with ⟨w, n⟩
    cases n with
    | go g => exact Or.inl ⟨g, Function.update_self ..⟩
    | ret v => exact Or.inr ⟨Function.update_self .., v, _, rfl⟩
  dsimp only at hs'
  rcases hover with ⟨g, hg⟩ | ⟨hnone, v, l, hl⟩
  · rw [hg, Option.isSome_some, if_pos rfl] at hs'
    have hsame : s' = s.stepped t b (some c) := by
      rw [← hs', DirSystem.stepped, DirSystem.setCall]
      dsimp only
      rw [← hc, Function.update_eq_self]
    rw [hsame]
    refine hi.stepped hb hrace ?_ ?_
    · intro d hd
      obtain rfl := Option.mem_some_iff.mp hd
      refine ⟨hok.num, hok.look, hok.dot, ?_⟩
      rw [hpos]
      exact ⟨hseen' _, hdvd, g, hg⟩
    · exact fun hout => absurd hpos (hout c rfl i)
  · rw [hnone, Option.isSome_none, if_neg (by decide), hl] at hs'
    dsimp only [List.head?_cons] at hs'
    by_cases hv : v = 0
    · rw [if_pos hv] at hs'
      rw [← hs']
      exact hi.stepped (o := none) hb hrace (fun d hd => absurd hd (by simp)) fun _ => hnone
    · rw [if_neg hv] at hs'
      rw [← hs']
      refine hi.stepped (o := some { c with pos := .add i v }) hb hrace ?_ fun _ => hnone
      intro d hd
      obtain rfl := Option.mem_some_iff.mp hd
      refine ⟨hok.num, hok.look, hok.dot, hseen' _, hdvd, ?_⟩
      have hmem : (i / dirEntries, v) ∈ b.returned := hl ▸ List.mem_cons_self
      obtain ⟨hlt, x, ks, hpath, hx, hks, -⟩ := hinv.returned _ hmem
      obtain rfl := hks hv
      exact ⟨hlt, hv, x, hpath, hx⟩

end DirSystem

end LihaLinux.Fs
