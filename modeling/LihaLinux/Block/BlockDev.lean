import LihaLinux.Lib.Overlay
import Mathlib.Data.Int.Notation
import Mathlib.Logic.Function.Basic

/-!
# Reading and writing a block device

`block_read` and `block_write` on one device, one call after another, through buffers that
`sync_dev` writes back and `getblk` takes for other blocks at any time. A block that is written as
a whole gets a buffer that is not up to date, and `breada` reads such a buffer from the device
again.
-/

namespace LihaLinux.Block

/-! ### Buffers -/

/-- The buffer of a block: its bytes, `b_uptodate` and `b_dirt`. -/
structure DevBuffer where
  data : ℕ → ℕ
  uptodate : Bool
  dirt : Bool

/-- A block device and its buffers. -/
structure BlockDev where
  /-- The buffers, by blocks. -/
  buf : ℕ → Option DevBuffer
  /-- The bytes of the blocks on the device. -/
  disk : ℕ → ℕ → ℕ
  /-- The blocks with which the device reports an error. -/
  bad : ℕ → Bool

/-- What is done to buffers that no call holds. -/
inductive CacheEvent
  /-- `sync_dev` or `sys_sync` write a dirty buffer. -/
  | sync (block : ℕ)
  /-- `getblk` takes a clean buffer for a block of another device. -/
  | evict (block : ℕ)

namespace BlockDev

variable (s : BlockDev) (b : ℕ)

/-- Store the buffer of a block. -/
def setBuf (x : Option DevBuffer) : BlockDev := { s with buf := Function.update s.buf b x }

/-- `ll_rw_block(WRITE,bh)` and the end of the request. -/
def writeBuffer : BlockDev :=
  match s.buf b with
  | none => s
  | some bh =>
    if bh.dirt then
      { s.setBuf b (some { bh with dirt := false, uptodate := !s.bad b }) with
        disk := if s.bad b then s.disk else Function.update s.disk b bh.data }
    else s

/-- `ll_rw_block(READ,bh)` and the end of the request. -/
def readBuffer : BlockDev :=
  match s.buf b with
  | none => s
  | some bh =>
    if bh.uptodate then s
    else if s.bad b then s.setBuf b (some { bh with dirt := false })
    else s.setBuf b (some ⟨s.disk b, true, false⟩)

/-- Take the buffer of a block for something else. -/
def evictBuffer : BlockDev :=
  match s.buf b with
  | none => s
  | some bh => if bh.dirt then s else s.setBuf b none

/-- `getblk`: the buffer of a block, which has the bytes `old` if it is a new one. -/
def getblk (old : ℕ → ℕ) : BlockDev :=
  match s.buf b with
  | none => s.setBuf b (some ⟨old, false, false⟩)
  | some _ => s

/-- `bh->b_uptodate`. -/
def isUptodate : Bool :=
  match s.buf b with
  | none => false
  | some bh => bh.uptodate

/-- Store bytes in the buffer of a block, and set `b_dirt`. -/
def storeBytes (offset : ℕ) (bytes : List ℕ) : BlockDev :=
  match s.buf b with
  | none => s
  | some bh => s.setBuf b (some { bh with data := overlay bh.data offset bytes, dirt := true })

/-- The bytes of the buffer of a block. -/
def loadBytes (offset chars : ℕ) : List ℕ :=
  match s.buf b with
  | none => []
  | some bh => slice bh.data offset chars

end BlockDev

/-- An event, while a call holds the buffer of the block `held`. -/
def CacheEvent.run (held : Option ℕ) (s : BlockDev) : CacheEvent → BlockDev
  | .sync b => s.writeBuffer b
  | .evict b => if held = some b then s else s.evictBuffer b

/-- What happens to the cache in one round of the loops below, and the bytes of the buffers that
are new then. -/
structure Turn where
  first : List CacheEvent
  second : List CacheEvent
  third : List CacheEvent
  old : ℕ → ℕ → ℕ

/-- `getblk`, after what it or others have done to the cache. -/
def getblkAfter (s : BlockDev) (held : Option ℕ) (es : List CacheEvent) (old : ℕ → ℕ → ℕ)
    (b : ℕ) : BlockDev := (es.foldl (CacheEvent.run held) s).getblk b (old b)

/-- `breada(dev,block,block+1,block+2,-1)`. `ll_rw_block(READA,bh)` is for the buffer of `block`
itself, which is locked or up to date then. -/
def breada (s : BlockDev) (b : ℕ) (u : Turn) : BlockDev :=
  let s := (getblkAfter s none u.first u.old b).readBuffer b
  let s := getblkAfter s (some b) u.second u.old (b + 1)
  getblkAfter s (some b) u.third u.old (b + 2)

/-- The end of `block_read` or `block_write`: the bytes that have been read, or the number of
bytes that have been written, and whether all have been. -/
structure Transfer (α : Type) where
  dev : BlockDev
  done : α
  all : Bool

/-- The value of `block_read` or `block_write`, for the number of bytes done. -/
def ioResult (done : ℕ) (all : Bool) : ℤ := if all || done ≠ 0 then done else -5

/-- The loop of `block_write`, with at most `n` rounds left. -/
def writeLoop (turns : ℕ → Turn) : ℕ → BlockDev → ℕ → ℕ → List ℕ → ℕ → Transfer ℕ
  | 0, s, _, _, _, written => ⟨s, written, true⟩
  | n + 1, s, block, offset, buf, written =>
    if buf.length = 0 then ⟨s, written, true⟩
    else
      let chars := min (1024 - offset) buf.length
      let s := if chars = 1024 then getblkAfter s none (turns block).first (turns block).old block
        else breada s block (turns block)
      if chars = 1024 ∨ s.isUptodate block then
        writeLoop turns n (s.storeBytes block offset (buf.take chars)) (block + 1) 0
          (buf.drop chars) (written + chars)
      else ⟨s, written, false⟩

/-- `block_write`, with `*pos`. -/
def blockWrite (turns : ℕ → Turn) (s : BlockDev) (pos : ℕ) (buf : List ℕ) : Transfer ℕ :=
  writeLoop turns buf.length s (pos / 1024) (pos % 1024) buf 0

/-- The loop of `block_read`, with at most `n` rounds left. -/
def readLoop (turns : ℕ → Turn) : ℕ → BlockDev → ℕ → ℕ → ℕ → List ℕ → Transfer (List ℕ)
  | 0, s, _, _, _, got => ⟨s, got, true⟩
  | n + 1, s, block, offset, count, got =>
    if count = 0 then ⟨s, got, true⟩
    else
      let chars := min (1024 - offset) count
      let s := breada s block (turns block)
      if s.isUptodate block then
        readLoop turns n s (block + 1) 0 (count - chars) (got ++ s.loadBytes block offset chars)
      else ⟨s, got, false⟩

/-- `block_read`, with `*pos`. -/
def blockRead (turns : ℕ → Turn) (s : BlockDev) (pos count : ℕ) : Transfer (List ℕ) :=
  readLoop turns count s (pos / 1024) (pos % 1024) count []

/-! ### What the buffers hold -/

namespace BlockDev

/-- The bytes of a block: those of its buffer, if it has a valid one. -/
def bytes (s : BlockDev) (b : ℕ) : ℕ → ℕ :=
  match s.buf b with
  | none => s.disk b
  | some bh => if bh.uptodate || bh.dirt then bh.data else s.disk b

/-- The bytes of the device, as an array. -/
def content (s : BlockDev) (p : ℕ) : ℕ := s.bytes (p / 1024) (p % 1024)

/-- The buffer of a block is dirty, but not up to date. -/
def Stale (s : BlockDev) (b : ℕ) : Prop :=
  ∃ bh, s.buf b = some bh ∧ bh.dirt = true ∧ bh.uptodate = false

/-- The device reports no errors, and a clean buffer that is up to date has the bytes on the
device. -/
structure Sound (s : BlockDev) : Prop where
  good : ∀ b, s.bad b = false
  clean : ∀ b bh, s.buf b = some bh → bh.dirt = false → bh.uptodate = true → s.disk b = bh.data

/-- A change that is not seen through the buffers. -/
structure Kept (s s' : BlockDev) : Prop where
  sound : s'.Sound
  bytes : ∀ b, s'.bytes b = s.bytes b
  stale : ∀ b, s'.Stale b → s.Stale b

section Kept

variable {s s' s'' : BlockDev} {b c : ℕ}

theorem Kept.refl (h : s.Sound) : Kept s s := ⟨h, fun _ => rfl, fun _ h => h⟩

theorem Kept.trans (h : Kept s s') (h' : Kept s' s'') : Kept s s'' :=
  ⟨h'.sound, fun b => (h'.bytes b).trans (h.bytes b), fun b hb => h.stale b (h'.stale b hb)⟩

theorem Kept.content (h : Kept s s') : s'.content = s.content := by
  funext p
  rw [BlockDev.content, h.bytes]
  rfl

/-- A change of one block. -/
theorem Kept.of_block (h : s.Sound) (hbad : s'.bad = s.bad)
    (hother : ∀ c, c ≠ b → s'.buf c = s.buf c ∧ s'.disk c = s.disk c)
    (hclean : ∀ bh, s'.buf b = some bh → bh.dirt = false → bh.uptodate = true →
      s'.disk b = bh.data)
    (hbytes : s'.bytes b = s.bytes b) (hstale : s'.Stale b → s.Stale b) : Kept s s' := by
  refine ⟨⟨fun c => ?_, fun c bh hc hdirt hup => ?_⟩, fun c => ?_, fun c hc => ?_⟩
  · rw [hbad]
    exact h.good c
  · by_cases hcb : c = b
    · subst hcb
      exact hclean bh hc hdirt hup
    · rw [(hother c hcb).1] at hc
      rw [(hother c hcb).2]
      exact h.clean c bh hc hdirt hup
  · by_cases hcb : c = b
    · rw [hcb, hbytes]
    · rw [BlockDev.bytes, BlockDev.bytes, (hother c hcb).1, (hother c hcb).2]
  · by_cases hcb : c = b
    · subst hcb
      exact hstale hc
    · rwa [Stale, (hother c hcb).1] at hc

theorem setBuf_self (s : BlockDev) (b : ℕ) (x : Option DevBuffer) : (s.setBuf b x).buf b = x :=
  Function.update_self ..

theorem setBuf_ne (s : BlockDev) (x : Option DevBuffer) (hc : c ≠ b) :
    (s.setBuf b x).buf c = s.buf c := Function.update_of_ne hc ..

/-- A buffer is written back. -/
theorem writeBuffer_kept (h : s.Sound) (b : ℕ) : Kept s (s.writeBuffer b) := by
  rw [writeBuffer]
  cases hb : s.buf b with
  | none => exact .refl h
  | some bh =>
    dsimp only
    split_ifs with hdirt hbad
    · rw [h.good b] at hbad
      exact absurd hbad (by decide)
    · have hself := setBuf_self s b (some { bh with dirt := false, uptodate := !s.bad b })
      apply Kept.of_block (b := b) h
      · rfl
      · intro c hc
        exact ⟨setBuf_ne s _ hc, Function.update_of_ne hc ..⟩
      · intro bh' hb' _ _
        cases hself.symm.trans hb'
        exact Function.update_self ..
      · simp only [BlockDev.bytes, setBuf_self, hb, hdirt, h.good b, Bool.not_false, Bool.or_true,
          Bool.or_false, if_true]
      · rintro ⟨bh', hb', hdirt', -⟩
        cases hself.symm.trans hb'
        exact absurd hdirt' Bool.false_ne_true
    · exact .refl h

/-- A clean buffer is taken away. -/
theorem evictBuffer_kept (h : s.Sound) (b : ℕ) : Kept s (s.evictBuffer b) := by
  rw [evictBuffer]
  cases hb : s.buf b with
  | none => exact .refl h
  | some bh =>
    dsimp only
    split_ifs with hdirt
    · exact .refl h
    · have hself := setBuf_self s b none
      apply Kept.of_block (b := b) h
      · rfl
      · exact fun c hc => ⟨setBuf_ne s _ hc, rfl⟩
      · intro bh' hb'
        cases hself.symm.trans hb'
      · have hdirt : bh.dirt = false := by simpa using hdirt
        simp only [BlockDev.bytes, hself, hb, hdirt, Bool.or_false]
        split_ifs with hup
        · exact h.clean b bh hb hdirt hup
        · rfl
      · rintro ⟨bh', hb', -⟩
        cases hself.symm.trans hb'

/-- A block gets a new buffer. -/
theorem getblk_kept (h : s.Sound) (b : ℕ) (old : ℕ → ℕ) : Kept s (s.getblk b old) := by
  rw [getblk]
  cases hb : s.buf b with
  | some bh => exact .refl h
  | none =>
    have hself := setBuf_self s b (some ⟨old, false, false⟩)
    apply Kept.of_block (b := b) h
    · rfl
    · exact fun c hc => ⟨setBuf_ne s _ hc, rfl⟩
    · intro bh' hb' _ hup
      cases hself.symm.trans hb'
      exact absurd hup Bool.false_ne_true
    · simp only [BlockDev.bytes, hself, hb]
      rfl
    · rintro ⟨bh', hb', hdirt, -⟩
      cases hself.symm.trans hb'
      exact absurd hdirt Bool.false_ne_true

/-- A buffer is read, unless that would lose what has been written to it. -/
theorem readBuffer_kept (h : s.Sound) (hstale : ¬s.Stale b) : Kept s (s.readBuffer b) := by
  rw [readBuffer]
  cases hb : s.buf b with
  | none => exact .refl h
  | some bh =>
    dsimp only
    split_ifs with hup hbad
    · exact .refl h
    · rw [h.good b] at hbad
      exact absurd hbad (by decide)
    · have hup : bh.uptodate = false := by simpa using hup
      have hdirt : bh.dirt = false := by
        by_contra hdirt
        exact hstale ⟨bh, hb, by simpa using hdirt, hup⟩
      have hself := setBuf_self s b (some ⟨s.disk b, true, false⟩)
      apply Kept.of_block (b := b) h
      · rfl
      · exact fun c hc => ⟨setBuf_ne s _ hc, rfl⟩
      · intro bh' hb' _ _
        cases hself.symm.trans hb'
        rfl
      · simp only [BlockDev.bytes, hself, hb, hup, hdirt, Bool.or_false, Bool.false_eq_true,
          if_true, if_false]
      · rintro ⟨bh', hb', hdirt', -⟩
        cases hself.symm.trans hb'
        exact absurd hdirt' Bool.false_ne_true

theorem event_kept (h : s.Sound) (held : Option ℕ) (e : CacheEvent) : Kept s (e.run held s) := by
  cases e with
  | sync b => exact writeBuffer_kept h b
  | evict b =>
    rw [CacheEvent.run]
    split_ifs
    · exact .refl h
    · exact evictBuffer_kept h b

theorem getblkAfter_kept (h : s.Sound) (held : Option ℕ) (es : List CacheEvent)
    (old : ℕ → ℕ → ℕ) (b : ℕ) : Kept s (getblkAfter s held es old b) := by
  have hevents : Kept s (es.foldl (CacheEvent.run held) s) := by
    induction es generalizing s with
    | nil => exact .refl h
    | cons e es ih =>
      have he := event_kept h held e
      exact he.trans (ih he.sound)
  exact hevents.trans (getblk_kept hevents.sound b (old b))

theorem breada_kept (h : s.Sound) (hstale : ¬s.Stale b) (u : Turn) : Kept s (breada s b u) := by
  have hfirst := getblkAfter_kept h none u.first u.old b
  have hread := readBuffer_kept hfirst.sound fun hb => hstale (hfirst.stale b hb)
  have hsecond := getblkAfter_kept hread.sound (some b) u.second u.old (b + 1)
  have hthird := getblkAfter_kept hsecond.sound (some b) u.third u.old (b + 2)
  exact ((hfirst.trans hread).trans hsecond).trans hthird

/-! ### Valid buffers -/

theorem getblk_isSome (s : BlockDev) (b : ℕ) (old : ℕ → ℕ) :
    ((s.getblk b old).buf b).isSome = true := by
  rw [getblk]
  cases hb : s.buf b with
  | some bh =>
    dsimp only
    rw [hb]
    rfl
  | none =>
    dsimp only
    rw [setBuf_self]
    rfl

theorem isUptodate_iff : s.isUptodate b = true ↔ ∃ bh, s.buf b = some bh ∧ bh.uptodate = true := by
  rw [isUptodate]
  cases s.buf b with
  | none => simp
  | some bh => simp

theorem isUptodate_setBuf (bh : DevBuffer) : (s.setBuf b (some bh)).isUptodate b = bh.uptodate := by
  rw [isUptodate, setBuf_self]

theorem isUptodate_congr (h : s'.buf b = s.buf b) : s'.isUptodate b = s.isUptodate b := by
  rw [isUptodate, isUptodate, h]

theorem readBuffer_isUptodate (h : s.Sound) (hb : (s.buf b).isSome = true) :
    (s.readBuffer b).isUptodate b = true := by
  obtain ⟨bh, hb⟩ := Option.isSome_iff_exists.mp hb
  rw [readBuffer, hb]
  dsimp only
  split_ifs with hup hbad
  · exact isUptodate_iff.mpr ⟨bh, hb, hup⟩
  · rw [h.good b] at hbad
    exact absurd hbad Bool.false_ne_true
  · exact isUptodate_setBuf _

/-- A buffer that is held stays up to date. -/
theorem event_isUptodate (h : s.Sound) (hb : s.isUptodate b = true) (e : CacheEvent) :
    (e.run (some b) s).isUptodate b = true := by
  cases e with
  | sync c =>
    rw [CacheEvent.run, writeBuffer]
    cases hc : s.buf c with
    | none => exact hb
    | some bh =>
      dsimp only
      by_cases hdirt : bh.dirt = true
      · rw [if_pos hdirt]
        by_cases hcb : b = c
        · subst hcb
          refine isUptodate_iff.mpr ⟨_, setBuf_self .., ?_⟩
          rw [h.good b]
          rfl
        · exact (isUptodate_congr (setBuf_ne s _ hcb)).trans hb
      · rwa [if_neg hdirt]
  | evict c =>
    rw [CacheEvent.run]
    split_ifs with hc
    · exact hb
    · rw [evictBuffer]
      have hcb : b ≠ c := fun h => hc (congrArg some h)
      split
      · exact hb
      · split_ifs
        · exact hb
        · rwa [isUptodate_congr (setBuf_ne s _ hcb)]

theorem getblk_isUptodate (hb : s.isUptodate b = true) (c : ℕ) (old : ℕ → ℕ) :
    (s.getblk c old).isUptodate b = true := by
  rw [getblk]
  cases hc : s.buf c with
  | some bh => exact hb
  | none =>
    dsimp only
    have hcb : b ≠ c := by
      rintro rfl
      obtain ⟨bh, hsome, -⟩ := isUptodate_iff.mp hb
      rw [hc] at hsome
      cases hsome
    rwa [isUptodate_congr (setBuf_ne s _ hcb)]

theorem getblkAfter_isUptodate (h : s.Sound) (hb : s.isUptodate b = true) (es : List CacheEvent)
    (old : ℕ → ℕ → ℕ) (c : ℕ) : (getblkAfter s (some b) es old c).isUptodate b = true := by
  have hevents : (es.foldl (CacheEvent.run (some b)) s).isUptodate b = true := by
    induction es generalizing s with
    | nil => exact hb
    | cons e es ih => exact ih (event_kept h (some b) e).sound (event_isUptodate h hb e)
  exact getblk_isUptodate hevents c (old c)

/-- `breada` returns a buffer that is up to date. -/
theorem breada_isUptodate (h : s.Sound) (hstale : ¬s.Stale b) (u : Turn) :
    (breada s b u).isUptodate b = true := by
  have hfirst := getblkAfter_kept h none u.first u.old b
  have hread := readBuffer_kept hfirst.sound fun hb => hstale (hfirst.stale b hb)
  have hsecond := getblkAfter_kept hread.sound (some b) u.second u.old (b + 1)
  have hup := readBuffer_isUptodate hfirst.sound (getblk_isSome _ b (u.old b))
  exact getblkAfter_isUptodate hsecond.sound (getblkAfter_isUptodate hread.sound hup ..) ..

/-! ### Transfers of bytes -/

theorem bytes_of_uptodate {bh : DevBuffer} (hb : s.buf b = some bh) (hup : bh.uptodate = true) :
    s.bytes b = bh.data := by
  rw [BlockDev.bytes, hb]
  dsimp only
  rw [hup, Bool.true_or, if_pos rfl]

theorem content_setBuf_ne (s : BlockDev) (x : Option DevBuffer) {p : ℕ} (hp : p / 1024 ≠ b) :
    (s.setBuf b x).content p = s.content p := by
  rw [BlockDev.content, BlockDev.bytes, setBuf_ne s _ hp]
  rfl

/-- The bytes that are read from a valid buffer. -/
theorem loadBytes_eq {offset chars : ℕ} (hup : s.isUptodate b = true)
    (hlen : offset + chars ≤ 1024) :
    s.loadBytes b offset chars = slice s.content (1024 * b + offset) chars := by
  obtain ⟨bh, hb, hbh⟩ := isUptodate_iff.mp hup
  rw [loadBytes, hb]
  apply slice_congr
  intro i hi
  have hdiv : (1024 * b + offset + i) / 1024 = b := by omega
  have hmod : (1024 * b + offset + i) % 1024 = offset + i := by omega
  rw [BlockDev.content, hdiv, hmod, bytes_of_uptodate hb hbh]

/-- The bytes after some have been stored in a buffer that is valid or is overwritten as a
whole. -/
theorem storeBytes_content {bh : DevBuffer} {offset : ℕ} {l : List ℕ} (hb : s.buf b = some bh)
    (hval : bh.uptodate = true ∨ l.length = 1024) (hlen : offset + l.length ≤ 1024) :
    (s.storeBytes b offset l).content = overlay s.content (1024 * b + offset) l := by
  have hself := setBuf_self s b (some { bh with data := overlay bh.data offset l, dirt := true })
  have hstore : s.storeBytes b offset l =
      s.setBuf b (some { bh with data := overlay bh.data offset l, dirt := true }) := by
    rw [storeBytes, hb]
  rw [hstore]
  funext p
  by_cases hp : p / 1024 = b
  · have hsplit : p = 1024 * b + p % 1024 := by omega
    have hlt : p % 1024 < 1024 := Nat.mod_lt _ (by decide)
    rw [BlockDev.content, hp, BlockDev.bytes, hself]
    dsimp only
    rw [Bool.or_true, if_pos rfl]
    conv_rhs => rw [hsplit]
    rw [← overlay_shift]
    rcases hval with hup | hfull
    · apply overlay_congr
      have hdiv : (1024 * b + p % 1024) / 1024 = b := by omega
      have hmod : (1024 * b + p % 1024) % 1024 = p % 1024 := by omega
      rw [BlockDev.content, hdiv, hmod, bytes_of_uptodate hb hup]
    · have hzero : offset = 0 := by omega
      subst hzero
      have hin : p % 1024 < l.length := by omega
      have hadd : overlay bh.data 0 l (0 + p % 1024) = l[p % 1024] := overlay_add hin
      have hadd' : overlay (fun q => s.content (1024 * b + q)) 0 l (0 + p % 1024) =
          l[p % 1024] := overlay_add hin
      rw [Nat.zero_add] at hadd hadd'
      rw [hadd, hadd']
  · rw [content_setBuf_ne s _ hp]
    rcases Nat.lt_or_ge p (1024 * b + offset) with hlt | hle
    · rw [overlay_before hlt]
    · rw [overlay_after (by omega)]

theorem storeBytes_sound (h : s.Sound) (b offset : ℕ) (l : List ℕ) :
    (s.storeBytes b offset l).Sound := by
  rw [storeBytes]
  cases hb : s.buf b with
  | none => exact h
  | some bh =>
    refine ⟨h.good, fun c bh' hc hdirt hup => ?_⟩
    by_cases hcb : c = b
    · subst hcb
      cases (setBuf_self ..).symm.trans hc
      exact absurd hdirt (by simp)
    · exact h.clean c bh' ((setBuf_ne s _ hcb).symm.trans hc) hdirt hup

theorem storeBytes_stale {offset : ℕ} {l : List ℕ} (hc : c ≠ b)
    (hstale : (s.storeBytes b offset l).Stale c) : s.Stale c := by
  rw [storeBytes] at hstale
  split at hstale
  · exact hstale
  · obtain ⟨bh, hbuf, hrest⟩ := hstale
    exact ⟨bh, (setBuf_ne s _ hc).symm.trans hbuf, hrest⟩

end Kept

end BlockDev

/-! ### The loops -/

open BlockDev

/-- A transfer of `len` bytes at `pos` touches a block. -/
def Touches (pos len b : ℕ) : Prop := pos < 1024 * (b + 1) ∧ 1024 * b < pos + len ∧ len ≠ 0

/-- A transfer of `len` bytes at `pos` touches a part of a block. -/
def TouchesPart (pos len b : ℕ) : Prop :=
  Touches pos len b ∧ ¬(pos ≤ 1024 * b ∧ 1024 * (b + 1) ≤ pos + len)

/-- A loop that has done all: the bytes after it. -/
structure Wrote (s : BlockDev) (pos : ℕ) (buf : List ℕ) (written : ℕ) (r : Transfer ℕ) : Prop where
  all : r.all = true
  done : r.done = written + buf.length
  sound : r.dev.Sound
  content : r.dev.content = overlay s.content pos buf

/-- Nothing is written. -/
theorem Wrote.nil {s : BlockDev} (h : s.Sound) (pos written : ℕ) {buf : List ℕ}
    (hbuf : buf.length = 0) : Wrote s pos buf written ⟨s, written, true⟩ := by
  obtain rfl := List.length_eq_zero_iff.mp hbuf
  exact ⟨rfl, rfl, h, overlay_nil.symm⟩

theorem writeLoop_wrote (turns : ℕ → Turn) {n block offset written : ℕ} {buf : List ℕ}
    {s : BlockDev} (h : s.Sound) (hoffset : offset < 1024) (hn : buf.length ≤ n)
    (hsafe : ∀ b, TouchesPart (1024 * block + offset) buf.length b → ¬s.Stale b) :
    Wrote s (1024 * block + offset) buf written
      (writeLoop turns n s block offset buf written) := by
  induction n generalizing s block offset buf written with
  | zero => exact .nil h _ written (by omega)
  | succ n ih =>
    rw [writeLoop]
    split_ifs with hbuf
    · exact .nil h _ written hbuf
    · have hmin : min (1024 - offset) buf.length = 1024 - offset ∨
          min (1024 - offset) buf.length = buf.length := by omega
      have hle : min (1024 - offset) buf.length ≤ buf.length := by omega
      have hfit : offset + min (1024 - offset) buf.length ≤ 1024 := by omega
      have hpos : 0 < min (1024 - offset) buf.length := by omega
      generalize hchars : min (1024 - offset) buf.length = chars at hmin hle hfit hpos ⊢
      dsimp only
      have htake : (buf.take chars).length = chars := List.length_take_of_le hle
      -- the buffer that the bytes go to
      obtain ⟨s₁, hs₁, hkept, hvalid⟩ : ∃ s₁, (if chars = 1024
          then getblkAfter s none (turns block).first (turns block).old block
          else breada s block (turns block)) = s₁ ∧ Kept s s₁ ∧
            ∃ bh, s₁.buf block = some bh ∧ (bh.uptodate = true ∨ chars = 1024) := by
        by_cases hfull : chars = 1024
        · rw [if_pos hfull]
          refine ⟨_, rfl, getblkAfter_kept h .., ?_⟩
          obtain ⟨bh, hbh⟩ := Option.isSome_iff_exists.mp (getblk_isSome
            ((turns block).first.foldl (CacheEvent.run none) s) block ((turns block).old block))
          exact ⟨bh, hbh, Or.inr hfull⟩
        · rw [if_neg hfull]
          have hstale : ¬s.Stale block := hsafe block ⟨⟨by omega, by omega, hbuf⟩, by omega⟩
          refine ⟨_, rfl, breada_kept h hstale _, ?_⟩
          obtain ⟨bh, hbh, hup⟩ := isUptodate_iff.mp (breada_isUptodate h hstale (turns block))
          exact ⟨bh, hbh, Or.inl hup⟩
      obtain ⟨bh, hbh, hval⟩ := hvalid
      have hcond : chars = 1024 ∨ s₁.isUptodate block = true := by
        rcases hval with hup | hfull
        · exact Or.inr (isUptodate_iff.mpr ⟨bh, hbh, hup⟩)
        · exact Or.inl hfull
      rw [hs₁, if_pos hcond]
      have hcontent := storeBytes_content hbh (hval.imp id fun hfull => htake.trans hfull)
        (by omega : offset + (buf.take chars).length ≤ 1024)
      rw [hkept.content] at hcontent
      have hsound := storeBytes_sound hkept.sound block offset (buf.take chars)
      have hrest := @ih (block + 1) 0 (written + chars) (buf.drop chars) _ hsound
        (by omega) (by rw [List.length_drop]; omega) (fun b hb => ?_)
      · have hdone := hrest.done
        rw [List.length_drop] at hdone
        refine ⟨hrest.all, by omega, hrest.sound, ?_⟩
        rw [hrest.content, hcontent]
        by_cases hlast : buf.length = chars
        · rw [hlast.symm, List.drop_length, List.take_length, overlay_nil]
        · have hnext : 1024 * (block + 1) + 0 =
              1024 * block + offset + (buf.take chars).length := by omega
          rw [hnext, overlay_append, List.take_append_drop]
      · obtain ⟨⟨hlow, hhigh, hne⟩, hpart⟩ := hb
        rw [List.length_drop] at hhigh hne hpart
        have hblock : b ≠ block := by omega
        intro hstale
        have hold := hkept.stale b (storeBytes_stale hblock hstale)
        exact hsafe b ⟨⟨by omega, by omega, hbuf⟩, by omega⟩ hold

/-- A loop that has read all: the bytes that it has got. -/
structure GotAll (s : BlockDev) (pos count : ℕ) (got : List ℕ) (r : Transfer (List ℕ)) : Prop where
  all : r.all = true
  done : r.done = got ++ slice s.content pos count
  kept : Kept s r.dev

theorem readLoop_gotAll (turns : ℕ → Turn) {n block offset count : ℕ} {got : List ℕ}
    {s : BlockDev} (h : s.Sound) (hoffset : offset < 1024) (hn : count ≤ n)
    (hsafe : ∀ b, Touches (1024 * block + offset) count b → ¬s.Stale b) :
    GotAll s (1024 * block + offset) count got
      (readLoop turns n s block offset count got) := by
  induction n generalizing s block offset count got with
  | zero =>
    obtain rfl := Nat.le_zero.mp hn
    exact ⟨rfl, (List.append_nil got).symm, .refl h⟩
  | succ n ih =>
    rw [readLoop]
    split_ifs with hcount
    · subst hcount
      exact ⟨rfl, (List.append_nil got).symm, .refl h⟩
    · obtain ⟨chars, hchars⟩ : ∃ chars, min (1024 - offset) count = chars := ⟨_, rfl⟩
      have hstale : ¬s.Stale block := hsafe block ⟨by omega, by omega, hcount⟩
      have hkept := breada_kept h hstale (turns block)
      have hup := breada_isUptodate h hstale (turns block)
      dsimp only
      rw [hchars, if_pos hup, loadBytes_eq hup (by omega), hkept.content]
      have hrest := @ih (block + 1) 0 (count - chars)
        (got ++ slice s.content (1024 * block + offset) chars) _ hkept.sound (by omega)
        (by omega) fun b hb hb' => ?_
      · refine ⟨hrest.all, ?_, hkept.trans hrest.kept⟩
        rw [hrest.done, hkept.content, List.append_assoc]
        by_cases hlast : count = chars
        · rw [hlast, Nat.sub_self, slice, List.append_nil]
        · have hnext : 1024 * (block + 1) + 0 = 1024 * block + offset + chars := by omega
          have hsum : chars + (count - chars) = count := by omega
          rw [hnext, ← slice_add, hsum]
      · obtain ⟨hlow, hhigh, hne⟩ := hb
        exact hsafe b ⟨by omega, by omega, hcount⟩ (hkept.stale b hb')

/-! ### Runs -/

/-- What happens to the device: a call, with what happens to the cache in its rounds, or an event
between the calls. -/
inductive DevStep
  | write (turns : ℕ → Turn) (pos : ℕ) (buf : List ℕ)
  | read (turns : ℕ → Turn) (pos count : ℕ)
  | cache (e : CacheEvent)

/-- The device after a step. -/
def DevStep.next (s : BlockDev) : DevStep → BlockDev
  | .write turns pos buf => (blockWrite turns s pos buf).dev
  | .read turns pos count => (blockRead turns s pos count).dev
  | .cache e => e.run none s

/-- The value that a step returns, and the bytes that it has read. -/
def DevStep.output (s : BlockDev) : DevStep → ℤ × List ℕ
  | .write turns pos buf =>
    let r := blockWrite turns s pos buf
    (ioResult r.done r.all, [])
  | .read turns pos count =>
    let r := blockRead turns s pos count
    (ioResult r.done.length r.all, r.done)
  | .cache _ => (0, [])

/-- The outputs of a run. -/
def devRun : BlockDev → List DevStep → List (ℤ × List ℕ)
  | _, [] => []
  | s, e :: es => e.output s :: devRun (e.next s) es

/-- The array of bytes that a device is meant to be, after a step. -/
def DevStep.nextArray (a : ℕ → ℕ) : DevStep → ℕ → ℕ
  | .write _ pos buf => overlay a pos buf
  | _ => a

/-- What a step is meant to return: a read gets the bytes that were written last. -/
def DevStep.arrayOutput (a : ℕ → ℕ) : DevStep → ℤ × List ℕ
  | .write _ _ buf => (buf.length, [])
  | .read _ pos count => (count, slice a pos count)
  | .cache _ => (0, [])

/-- The outputs that a run is meant to have. -/
def arrayRun : (ℕ → ℕ) → List DevStep → List (ℤ × List ℕ)
  | _, [] => []
  | a, e :: es => e.arrayOutput a :: arrayRun (e.nextArray a) es

/-- No block that the step reads, and none that it writes in part, has a buffer that is dirty but
not up to date. -/
def DevStep.Fresh (s : BlockDev) : DevStep → Prop
  | .write _ pos buf => ∀ b, TouchesPart pos buf.length b → ¬s.Stale b
  | .read _ pos count => ∀ b, Touches pos count b → ¬s.Stale b
  | .cache _ => True

/-- All steps of a run are fresh. -/
def FreshRun : BlockDev → List DevStep → Prop
  | _, [] => True
  | s, e :: es => e.Fresh s ∧ FreshRun (e.next s) es

/-- A device that reports no errors, and of which nothing is in the cache. -/
structure NoBuffers (s : BlockDev) : Prop where
  good : ∀ b, s.bad b = false
  buf : ∀ b, s.buf b = none

theorem NoBuffers.sound {s : BlockDev} (h : NoBuffers s) : s.Sound := by
  refine ⟨h.good, fun b bh hb => ?_⟩
  rw [h.buf] at hb
  cases hb

theorem blockWrite_wrote (turns : ℕ → Turn) {s : BlockDev} (h : s.Sound) {pos : ℕ} {buf : List ℕ}
    (hsafe : ∀ b, TouchesPart pos buf.length b → ¬s.Stale b) :
    Wrote s pos buf 0 (blockWrite turns s pos buf) := by
  have hsplit : 1024 * (pos / 1024) + pos % 1024 = pos := Nat.div_add_mod pos 1024
  have hwrote : Wrote s (1024 * (pos / 1024) + pos % 1024) buf 0 (blockWrite turns s pos buf) :=
    writeLoop_wrote turns h (Nat.mod_lt _ (by decide)) (Nat.le_refl buf.length) (by rwa [hsplit])
  rwa [hsplit] at hwrote

theorem blockRead_gotAll (turns : ℕ → Turn) {s : BlockDev} (h : s.Sound) {pos count : ℕ}
    (hsafe : ∀ b, Touches pos count b → ¬s.Stale b) :
    GotAll s pos count [] (blockRead turns s pos count) := by
  have hsplit : 1024 * (pos / 1024) + pos % 1024 = pos := Nat.div_add_mod pos 1024
  have hgot : GotAll s (1024 * (pos / 1024) + pos % 1024) count [] (blockRead turns s pos count) :=
    readLoop_gotAll turns h (Nat.mod_lt _ (by decide)) (Nat.le_refl count) (by rwa [hsplit])
  rwa [hsplit] at hgot

/-- One fresh step does what the array does. -/
theorem DevStep.Fresh.simulates {s : BlockDev} {e : DevStep} (hfresh : e.Fresh s) (h : s.Sound) :
    (e.next s).Sound ∧ (e.next s).content = e.nextArray s.content ∧
      e.output s = e.arrayOutput s.content := by
  cases e with
  | write turns pos buf =>
    have hwrote := blockWrite_wrote turns h hfresh
    refine ⟨hwrote.sound, hwrote.content, ?_⟩
    simp only [DevStep.output, DevStep.arrayOutput, hwrote.all, hwrote.done, ioResult,
      Bool.true_or, if_true, Nat.zero_add]
  | read turns pos count =>
    have hgot := blockRead_gotAll turns h hfresh
    refine ⟨hgot.kept.sound, hgot.kept.content, ?_⟩
    simp only [DevStep.output, DevStep.arrayOutput, hgot.all, hgot.done, ioResult, List.nil_append,
      length_slice, Bool.true_or, if_true]
  | cache e =>
    have hkept := event_kept h none e
    exact ⟨hkept.sound, hkept.content, rfl⟩

/-- In every run whose steps are all fresh, every byte that is read is the one that was written
last, or the one on the device at the start. -/
theorem devRun_eq_arrayRun {s : BlockDev} {es : List DevStep} (h : NoBuffers s)
    (hfresh : FreshRun s es) :
    devRun s es = arrayRun (fun p => s.disk (p / 1024) (p % 1024)) es := by
  have hcontent : s.content = fun p => s.disk (p / 1024) (p % 1024) := by
    funext p
    rw [BlockDev.content, BlockDev.bytes, h.buf]
  rw [← hcontent]
  have hsound := h.sound
  clear h hcontent
  induction es generalizing s with
  | nil => rfl
  | cons e es ih =>
    obtain ⟨hnext, hcontent, houtput⟩ := hfresh.1.simulates hsound
    rw [devRun, arrayRun, houtput, ih hfresh.2 hnext, hcontent]

/-- A device with zeros on it. -/
def zeroDevice : BlockDev := ⟨fun _ => none, fun _ _ => 0, fun _ => false⟩

/-- Nothing but the call happens, and new buffers have zeros. -/
def quiet (_ : ℕ) : Turn := ⟨[], [], [], fun _ _ => 0⟩

/-- One byte is written and read. -/
theorem devRun_byte : devRun zeroDevice [.write quiet 5 [7], .read quiet 5 1] =
    arrayRun (fun _ => 0) [.write quiet 5 [7], .read quiet 5 1] := by
  have hnone : NoBuffers zeroDevice := ⟨fun _ => rfl, fun _ => rfl⟩
  have hup : ((DevStep.write quiet 5 [7]).next zeroDevice).isUptodate 0 = true := rfl
  refine devRun_eq_arrayRun hnone ⟨fun b _ ⟨bh, hb, _⟩ => ?_, fun b hb hstale => ?_, trivial⟩
  · cases hb
  · obtain ⟨hlow, hhigh, -⟩ := hb
    have hzero : b = 0 := by omega
    subst hzero
    obtain ⟨bh, hbuf, -, hold⟩ := hstale
    obtain ⟨bh', hbuf', hnew⟩ := isUptodate_iff.mp hup
    rw [hbuf'] at hbuf
    cases hbuf
    rw [hnew] at hold
    cases hold

/-- A block that is written as a whole is lost when it is read next. -/
theorem devRun_lost : NoBuffers zeroDevice ∧
    devRun zeroDevice [.write quiet 0 (List.replicate 1024 1), .read quiet 0 1] =
      [(1024, []), (1, [0])] ∧
    arrayRun (fun _ => 0) [.write quiet 0 (List.replicate 1024 1), .read quiet 0 1] =
      [(1024, []), (1, [1])] := by
  refine ⟨⟨fun _ => rfl, fun _ => rfl⟩, ?_, ?_⟩
  · decide +kernel
  · decide +kernel

end LihaLinux.Block
