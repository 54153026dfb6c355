import Larva.Util.Cbmem

/-!
# What a walk over the circular log visits

The entries of the log lie one behind the other, in one stretch from the
front of the buffer, or in two: the older ones up to the logical end, the
newer ones from the front to somewhere below them. `Layout` says so once, and
gives the list of entries, oldest first. An append drops entries at the old
end of that list and puts one at its new end; a walk visits the list.

The append looks only at the bytes from `dst` to `dst + len` when it decides
whether the entry fits and which entries give way, and then writes four bytes
more, since it forgets the header. `AppendSafe` is the condition under which
that does no harm: the four bytes are inside the buffer, and no entry that
stays begins in them.
-/

namespace Larva.Util

open Larva.Bytes Larva.Crash List Option

namespace Cbmem

variable {s s' : Cbmem} {buf buf' d : List UInt8} {p q a c x : Nat}
  {vs us ws : List Visit} {v : Visit}

/-! ## The length field -/

variable {n dst fuel st e stop : Nat} {seen : List Visit}

theorem lenAt_lt (h : lenAt buf p = some n) : n < 2 ^ 16 := by
  unfold lenAt at h
  split at h
  · next lo hi _ _ =>
    have hlo := lo.toNat_lt
    have hhi := hi.toNat_lt
    have hn := some.inj h
    omega
  · cases h

theorem lenAt_le16 (hn : n < 2 ^ 16)
    (h0 : buf[p]? = (le16 n)[0]?) (h1 : buf[p + 1]? = (le16 n)[1]?) : lenAt buf p = some n := by
  unfold lenAt
  rw [h0, h1]
  simp only [le16, getElem?_cons_zero, getElem?_cons_succ, UInt8.toNat_ofNat']
  congr 1
  omega

/-! ## Entries one behind the other -/

/-- The bytes at `p` are an entry that holds `d`. -/
structure At (buf : List UInt8) (p : Nat) (d : List UInt8) : Prop where
  len : lenAt buf p = some d.length
  data : ∀ i < d.length, buf[p + hdrSz + i]? = d[i]?
  inside : p + hdrSz + d.length ≤ buf.length

theorem At.congr (h : At buf p d) (hl : buf'.length = buf.length)
    (he : ∀ x, p ≤ x → x < p + hdrSz + d.length → buf'[x]? = buf[x]?) : At buf' p d where
  len := by
    have h0 := he p (le_refl p) (by simp only [hdrSz]; omega)
    have h1 := he (p + 1) (Nat.le_succ p) (by simp only [hdrSz]; omega)
    have hlen := h.len
    unfold lenAt at hlen ⊢
    rw [h0, h1]
    exact hlen
  data := by
    intro i hi
    rw [he _ (by omega) (by omega)]
    exact h.data i hi
  inside := by
    rw [hl]
    exact h.inside

/-- The entries `vs` fill the bytes from `p` to `q`. -/
def Chain (buf : List UInt8) : Nat → List Visit → Nat → Prop
  | p, [], q => p = q
  | p, v :: vs, q =>
    v.hdr = p ∧ At buf p v.data ∧ Chain buf (p + hdrSz + v.data.length) vs q

theorem chain_append : Chain buf p (vs ++ ws) q ↔ ∃ m, Chain buf p vs m ∧ Chain buf m ws q := by
  induction vs generalizing p with
  | nil => simp [Chain]
  | cons v vs ih =>
    simp only [cons_append, Chain, ih]
    constructor
    · intro ⟨hv, hat, m, h1, h2⟩
      exact ⟨m, ⟨hv, hat, h1⟩, h2⟩
    · intro ⟨m, ⟨hv, hat, h1⟩, h2⟩
      exact ⟨hv, hat, m, h1, h2⟩

theorem chain_single : Chain buf p [v] q ↔
      v.hdr = p ∧ At buf p v.data ∧ p + hdrSz + v.data.length = q :=
  Iff.rfl

section

variable (h : Chain buf p vs q)
include h

theorem Chain.length_le : p + vs.length ≤ q := by
  induction vs generalizing p with
  | nil => exact le_of_eq h
  | cons v vs ih =>
    have := ih h.2.2
    simp only [length_cons, hdrSz] at *
    omega

theorem Chain.le : p ≤ q := by
  have := h.length_le
  omega

theorem Chain.lt (hvs : vs ≠ []) : p < q := by
  have := h.length_le
  have := length_pos_iff.mpr hvs
  omega

theorem Chain.inside (hvs : vs ≠ []) : q ≤ buf.length := by
  induction vs generalizing p with
  | nil => exact absurd rfl hvs
  | cons v vs ih =>
    cases vs with
    | nil =>
      have hq := (chain_single.mp h).2.2
      have := h.2.1.inside
      omega
    | cons w vs => exact ih h.2.2 (cons_ne_nil w vs)

theorem Chain.mem (hv : v ∈ vs) : p ≤ v.hdr ∧ v.hdr < q := by
  induction vs generalizing p with
  | nil => cases hv
  | cons w vs ih =>
    have hle := h.2.2.le
    rcases mem_cons.mp hv with rfl | hv
    · have := h.1
      simp only [hdrSz] at hle
      omega
    · have := ih h.2.2 hv
      omega

theorem Chain.at_mem (hv : v ∈ vs) : At buf v.hdr v.data := by
  induction vs generalizing p with
  | nil => cases hv
  | cons w vs ih =>
    obtain ⟨rfl, hat, hrest⟩ := h
    rcases mem_cons.mp hv with rfl | hv
    · exact hat
    · exact ih hrest hv

theorem Chain.congr (hl : buf'.length = buf.length)
    (he : ∀ x, p ≤ x → x < q → buf'[x]? = buf[x]?) : Chain buf' p vs q := by
  induction vs generalizing p with
  | nil => exact h
  | cons v vs ih =>
    have hle := h.2.2.le
    exact ⟨h.1, h.2.1.congr hl fun x h1 h2 => he x h1 (by omega),
      ih h.2.2 fun x h1 h2 => he x (by omega) h2⟩

end

/-- How the log lies in the buffer, and the entries in it, oldest first. -/
inductive Layout (s : Cbmem) : List Visit → Prop
  | empty (hs : s.cEntryStart = none) (he : s.cEntryEnd = none) : Layout s []
  | flat {vs : List Visit} {v : Visit} {q : Nat} (hs : s.cEntryStart = some 0)
      (he : s.cEntryEnd = some v.hdr) (hc : Chain s.cBuf 0 (vs ++ [v]) q) : Layout s (vs ++ [v])
  | wrapped {us ws : List Visit} {v : Visit} {a c q : Nat} (hs : s.cEntryStart = some a)
      (he : s.cEntryEnd = some v.hdr) (hcur : s.cBufCurEnd = some c)
      (hus : us ≠ []) (hu : Chain s.cBuf a us c) (hc : Chain s.cBuf 0 (ws ++ [v]) q) (hqa : q ≤ a) :
      Layout s (us ++ (ws ++ [v]))

/-! ## The steps of the append -/

theorem wp_cehLen (h : lenAt s.cBuf p = some n) :
    Wp (cehLen p) (.total fun r s' => r = n ∧ s' = s) s := by
  refine .get_bind ?_
  rw [h]
  exact .pure ⟨rfl, rfl⟩

theorem wp_entrySize (h : At s.cBuf p d) :
    Wp (entrySize p) (.total fun r s' => r = hdrSz + d.length ∧ s' = s) s :=
  .bind_known (wp_cehLen h.len) (.pure ⟨rfl, rfl⟩)

theorem wp_entryNext (h : At s.cBuf p d) :
    Wp (entryNext p) (.total fun r s' => r = p + hdrSz + d.length ∧ s' = s)
      s :=
  .bind_known (wp_entrySize h) (.pure ⟨(add_assoc _ _ _).symm, rfl⟩)

theorem wp_store (h : p + d.length ≤ s.cBuf.length) : Wp (store p d)
      (.total fun _ s' => s' = { s with cBuf := splice s.cBuf p d }) s := by
  refine .get_bind ?_
  rw [if_pos h]
  exact .modify rfl

/-- What the buffer is after an entry was copied to `dst`. -/
structure Copied (buf buf' : List UInt8) (dst : Nat) (d : List UInt8) : Prop where
  entry : At buf' dst d
  length : buf'.length = buf.length
  outside : ∀ x, x < dst ∨ dst + hdrSz + d.length ≤ x → buf'[x]? = buf[x]?

theorem le16_fits (hfit : dst + hdrSz + d.length ≤ buf.length) :
    dst + (le16 d.length).length ≤ buf.length := by
  simp only [hdrSz] at hfit
  rw [length_le16]
  omega

theorem copied_splice (hd : d.length < 2 ^ 16) (hfit : dst + hdrSz + d.length ≤ buf.length) :
    Copied buf (splice (splice buf dst (le16 d.length)) (dst + hdrSz) d) dst d := by
  have hb : (le16 d.length).length = 2 := rfl
  have h1 := le16_fits hfit
  have hl1 := length_splice h1
  have h2 : dst + hdrSz + d.length ≤ (splice buf dst (le16 d.length)).length := by
    omega
  have hl2 := length_splice h2
  constructor
  · constructor
    · refine lenAt_le16 hd ?_ ?_
      · rw [splice_outside h2 (.inl (by simp only [hdrSz]; omega))]
        exact splice_inside (x := 0) h1 (by omega)
      · rw [splice_outside h2 (.inl (by simp only [hdrSz]; omega))]
        exact splice_inside h1 (by omega)
    · intro i hi
      exact splice_inside h2 hi
    · omega
  · omega
  · intro x hx
    rw [splice_outside h2 (by omega), splice_outside h1 (by simp only [hdrSz] at hx; omega)]

theorem wp_copyIn (hd : d.length < 2 ^ 16)
    (hfit : dst + hdrSz + d.length ≤ s.cBuf.length) : Wp (copyIn dst d)
      (.total fun _ s' => ∃ buf', Copied s.cBuf buf' dst d ∧
        s' = { s with cBuf := buf', cEntryEnd := some dst
                      cEntryStart := some (s.cEntryStart.getD dst) }) s := by
  have hc := copied_splice hd hfit
  have h1 := le16_fits hfit
  have hl1 := length_splice h1
  refine .bind_total (wp_store h1) fun _ s1 hs1 => ?_
  subst hs1
  refine .bind_total (wp_store (by simpa only [hl1] using hfit)) fun _ s2 hs2 => ?_
  subst hs2
  exact .modify ⟨_, hc, rfl⟩

/-- The entries that give way are the oldest ones. Either none is left, and
the start is the front of the buffer, or the first that is left begins at or
behind `stop`. -/
theorem wp_moveLoop (hus : us ≠ []) (hu : Chain s.cBuf a us c) (hcur : s.cBufCurEnd = some c)
    (hf : us.length ≤ fuel) : Wp (moveLoop stop fuel a) (.total fun r s' => s' = s ∧
        (r = 0 ∨ ∃ us', us' ≠ [] ∧ us' <:+ us ∧ Chain s.cBuf r us' c ∧ stop ≤ r)) s := by
  induction fuel generalizing a us with
  | zero => exact absurd (length_eq_zero_iff.mp (by omega)) hus
  | succ fuel ih =>
    unfold moveLoop
    split
    · next hlt =>
      cases us with
      | nil => exact absurd rfl hus
      | cons v us =>
        obtain ⟨hv, hat, hrest⟩ := hu
        refine .bind_known (wp_entryNext hat) ?_
        refine .get_bind ?_
        split
        · exact .pure ⟨rfl, .inl rfl⟩
        · next hne =>
          have hus' : us ≠ [] := by
            rintro rfl
            exact hne (by rw [hcur]; exact congrArg some hrest)
          refine (ih hus' hrest (Nat.le_of_succ_le_succ hf)).mono_ok fun r s' h => ?_
          obtain ⟨rfl, h⟩ := h
          refine ⟨rfl, h.imp_right ?_⟩
          intro hpost
          obtain ⟨us', h1, h2, h3⟩ := hpost
          exact ⟨us', h1, h2.trans (suffix_cons v us), h3⟩
    · next hle =>
      exact .pure ⟨rfl, .inr ⟨us, hus, suffix_refl us, hu, Nat.le_of_not_lt hle⟩⟩

theorem wp_moveStart (hs : s.cEntryStart = some a) (hus : us ≠ []) (hu : Chain s.cBuf a us c)
    (hcur : s.cBufCurEnd = some c) (hdst : dst ≤ a) :
    Wp (moveStart dst stop) (.total fun _ s' => ∃ r, s' = { s with cEntryStart := some r } ∧
        (r = 0 ∨ ∃ us', us' ≠ [] ∧ us' <:+ us ∧ Chain s.cBuf r us' c ∧ stop ≤ r)) s := by
  have hfuel : us.length ≤ s.cBuf.length + 1 := by
    have := hu.length_le
    have := hu.inside hus
    omega
  refine .get_bind ?_
  rw [hs]
  cases us with
  | nil => exact absurd rfl hus
  | cons v us =>
    refine .bind_known (wp_entrySize hu.2.1) ?_
    split
    · refine .bind_total (wp_moveLoop hus hu hcur hfuel) fun r s2 h => ?_
      obtain ⟨rfl, h⟩ := h
      exact .modify ⟨r, rfl, h⟩
    · next hn =>
      have hle : stop ≤ a := by
        simp only [hdrSz] at hn
        omega
      refine .pure ⟨a, ?_, .inr ⟨_, hus, suffix_refl _, hu, hle⟩⟩
      rw [← hs]

/-! ## The append on a whole layout -/

/-- Where the byte behind the newest entry is. -/
def freeAt (s : Cbmem) : Nat :=
  match s.cEntryEnd with
  | some e => e + hdrSz + (lenAt s.cBuf e).getD 0
  | none => 0

/-- The append of `len` bytes goes back to the front of the buffer. -/
def Wraps (s : Cbmem) (len : Nat) : Prop := s.cBuf.length < s.freeAt + len

instance (s : Cbmem) (len : Nat) : Decidable (s.Wraps len) :=
  inferInstanceAs (Decidable (_ < _))

/-- Where the append of `len` bytes goes. -/
def dstFor (s : Cbmem) (len : Nat) : Nat :=
  if s.Wraps len then 0 else s.freeAt

/-- The entries a walk visits. -/
def entries (s : Cbmem) : List Visit :=
  match cbmemWalk note [] s none with
  | .ok vs _ _ => vs
  | _ => []

/-- The four bytes the append does not count are inside the buffer, and no
entry begins in them. The entries behind the logical end that a wrap sets are
dropped in any case. -/
structure AppendSafe (s : Cbmem) (d : List UInt8) : Prop where
  len : d.length < 2 ^ 16
  fits : s.dstFor d.length + hdrSz + d.length ≤ s.cBuf.length
  clear : ∀ v ∈ s.entries, (s.Wraps d.length → v.hdr < s.freeAt) →
    v.hdr < s.dstFor d.length + d.length ∨ s.dstFor d.length + hdrSz + d.length ≤ v.hdr

instance (s : Cbmem) (d : List UInt8) : Decidable (s.AppendSafe d) :=
  decidable_of_iff (d.length < 2 ^ 16 ∧ s.dstFor d.length + hdrSz + d.length ≤ s.cBuf.length ∧
      ∀ v ∈ s.entries, (s.Wraps d.length → v.hdr < s.freeAt) →
        v.hdr < s.dstFor d.length + d.length ∨ s.dstFor d.length + hdrSz + d.length ≤ v.hdr)
    ⟨fun h => ⟨h.1, h.2.1, h.2.2⟩, fun h => ⟨h.len, h.fits, h.clear⟩⟩

theorem AppendSafe.wraps (h : AppendSafe s d) (hw : s.Wraps d.length) :
    hdrSz + d.length ≤ s.cBuf.length ∧ ∀ v ∈ s.entries, v.hdr < s.freeAt →
      v.hdr < d.length ∨ hdrSz + d.length ≤ v.hdr := by
  have hfits := h.fits
  have hclear := h.clear
  simp only [dstFor, if_pos hw, zero_add] at hfits hclear
  exact ⟨hfits, fun v hv hlt => hclear v hv fun _ => hlt⟩

theorem AppendSafe.goesOn (h : AppendSafe s d) (hw : ¬ s.Wraps d.length) :
    s.freeAt + hdrSz + d.length ≤ s.cBuf.length ∧ ∀ v ∈ s.entries,
      v.hdr < s.freeAt + d.length ∨ s.freeAt + hdrSz + d.length ≤ v.hdr := by
  have hfits := h.fits
  have hclear := h.clear
  simp only [dstFor, if_neg hw] at hfits hclear
  exact ⟨hfits, fun v hv => hclear v hv fun hw' => absurd hw' hw⟩

theorem Chain.newest (hc : Chain buf 0 (vs ++ [v]) q) :
    At buf v.hdr v.data ∧ v.hdr + hdrSz + v.data.length = q := by
  obtain ⟨m, -, h⟩ := chain_append.mp hc
  obtain ⟨rfl, hat, hq⟩ := chain_single.mp h
  exact ⟨hat, hq⟩

section

variable (he : s.cEntryEnd = some v.hdr) (hc : Chain s.cBuf 0 (vs ++ [v]) q)
include he hc

theorem freeAt_eq : s.freeAt = q := by
  obtain ⟨hat, hq⟩ := hc.newest
  unfold freeAt
  rw [he]
  simp only [hat.len, getD_some]
  exact hq

theorem wp_nextDst : Wp nextDst (.total fun r s' => r = q ∧ s' = s) s := by
  obtain ⟨hat, hq⟩ := hc.newest
  refine .get_bind ?_
  rw [he]
  exact (wp_entryNext hat).mono_ok fun _ _ h => ⟨h.1.trans hq, h.2⟩

end

/-- An entry that is copied in behind `ws` lengthens that stretch. -/
theorem Copied.chain (hcp : Copied buf buf' dst d) (hw : Chain buf 0 ws dst) :
    Chain buf' 0 (ws ++ [⟨dst, d⟩]) (dst + hdrSz + d.length) :=
  chain_append.mpr ⟨dst, hw.congr hcp.length fun x _ h => hcp.outside x (.inl h),
    chain_single.mpr ⟨rfl, hcp.entry, rfl⟩⟩

/-- What an append leaves: some of the newest entries, and the new one. -/
def Appended (d : List UInt8) (vs : List Visit) (s s' : Cbmem) : Prop :=
  s'.cBuf.length = s.cBuf.length ∧ ∃ vs' v, vs' <:+ vs ∧ v.data = d ∧ Layout s' (vs' ++ [v])

section

variable (hd : d.length < 2 ^ 16) (hfit : dst + hdrSz + d.length ≤ s.cBuf.length)
include hd hfit

/-- The new entry goes behind `ws`, where the older entries `us` may have to
give way. This is the append to a wrapped log, and the append that wraps
one. -/
theorem wp_place (hclear : ∀ v ∈ us, v.hdr < dst + d.length ∨
      dst + hdrSz + d.length ≤ v.hdr) (hs : s.cEntryStart = some a) (hus : us ≠ [])
    (hu : Chain s.cBuf a us c) (hcur : s.cBufCurEnd = some c)
    (hw : Chain s.cBuf 0 ws dst) (hdst : dst ≤ a) :
    Wp (do moveStart dst (dst + d.length); copyIn dst d)
      (.total fun _ s' => Appended d (us ++ ws) s s') s := by
  refine .bind_total (wp_moveStart hs hus hu hcur hdst) fun _ s1 h => ?_
  obtain ⟨r, rfl, hr⟩ := h
  have hcopy := wp_copyIn (s := { s with cEntryStart := some r }) hd hfit
  refine hcopy.mono_ok fun _ s' h => ?_
  obtain ⟨buf', hcp, rfl⟩ := h
  refine ⟨hcp.length, ?_⟩
  rcases hr with rfl | ⟨us', hus', hsuf, hu', hstop⟩
  · exact ⟨ws, ⟨dst, d⟩, suffix_append us ws, rfl, .flat rfl rfl (hcp.chain hw)⟩
  -- The first entry that stays does not begin in the four bytes either.
  have hge : dst + hdrSz + d.length ≤ r := by
    cases us' with
    | nil => exact absurd rfl hus'
    | cons v us' =>
      obtain ⟨rfl, -⟩ := hu'
      have := hclear v (hsuf.subset (mem_cons_self ..))
      omega
  have hkept : Chain buf' r us' c :=
    hu'.congr hcp.length fun x h _ => hcp.outside x (.inr (by omega))
  refine ⟨us' ++ ws, ⟨dst, d⟩, ?_, rfl, ?_⟩
  · obtain ⟨pre, rfl⟩ := hsuf
    exact ⟨pre, (append_assoc ..).symm⟩
  · rw [append_assoc]
    exact .wrapped rfl rfl hcur hus' hkept (hcp.chain hw) hge

/-- The new entry goes behind `us`, with nothing to give way. -/
theorem wp_placeKept (hs : s.cEntryStart.getD dst = 0) (hu : Chain s.cBuf 0 us dst)
    (hkeep : Wp (moveStart dst stop) (.total fun _ s' => s' = s) s) :
    Wp (do moveStart dst stop; copyIn dst d) (.total fun _ s' => Appended d us s s') s := by
  refine .bind_total hkeep fun _ s1 h => ?_
  subst h
  refine (wp_copyIn hd hfit).mono_ok fun _ s' h => ?_
  obtain ⟨buf', hcp, rfl⟩ := h
  exact ⟨hcp.length, us, ⟨dst, d⟩, suffix_refl us, rfl, .flat (congrArg some hs) rfl (hcp.chain hu)⟩

/-- The new entry goes behind a log that lies in one stretch. -/
theorem wp_placeBehind (hs : s.cEntryStart = some 0) (hus : us ≠ [])
    (hu : Chain s.cBuf 0 us dst) : Wp (do moveStart dst (dst + d.length); copyIn dst d)
      (.total fun _ s' => Appended d us s s') s := by
  refine wp_placeKept hd hfit (by rw [hs]; rfl) hu (.get_bind ?_)
  rw [hs]
  cases us with
  | nil => exact absurd rfl hus
  | cons v us =>
    refine .bind_known (wp_entrySize hu.2.1) ?_
    have hle := hu.2.2.le
    rw [if_neg (by omega)]
    exact .pure rfl

end

theorem wp_placeFirst (hd : d.length < 2 ^ 16)
    (hfit : hdrSz + d.length ≤ s.cBuf.length) (hs : s.cEntryStart = none) :
    Wp (do moveStart 0 (0 + d.length); copyIn 0 d) (.total fun _ s' => Appended d [] s s') s := by
  refine wp_placeKept hd (by omega) (by rw [hs]; rfl) rfl (.get_bind ?_)
  rw [hs]
  exact .pure rfl

/-! ## The walk -/

theorem At.data_eq (h : At buf p d) : (buf.drop (p + hdrSz)).take d.length = d := by
  have hin := h.inside
  refine ext_getElem? fun i => ?_
  by_cases hi : i < d.length
  · rw [getElem?_take_of_lt hi, getElem?_drop]
    exact h.data i hi
  · rw [getElem?_eq_none (by rw [length_take]; omega), getElem?_eq_none (by omega)]

/-- A read of an entry stays inside it, whatever is asked for. -/
theorem wp_cbmemRead (h : At s.cBuf p d) (off len : Nat) : Wp (cbmemRead p off len)
      (.total fun r s' => r = (if d.length < off then none else some ((d.drop off).take len)) ∧
        s' = s) s := by
  have hin := h.inside
  have hlen : (if d.length < off + len then d.length - off else len) = min len (d.length - off) := by
    split <;> omega
  refine .bind_known (wp_cehLen h.len) ?_
  by_cases hoff : d.length < off
  · rw [if_pos hoff, if_pos hoff]
    exact .pure ⟨rfl, rfl⟩
  · rw [if_neg hoff, if_neg hoff, hlen]
    refine .get_bind ?_
    rw [if_pos (by omega), ← take_take, ← drop_drop, ← drop_take, h.data_eq]
    exact .pure ⟨rfl, rfl⟩

theorem wp_note (h : At s.cBuf p d) : Wp (note p seen)
      (.total fun r s' => r = (0, seen ++ [⟨p, d⟩]) ∧ s' = s) s := by
  refine .bind_total (wp_cbmemRead h 0 0xffff) fun _ s1 h1 => ?_
  obtain ⟨rfl, rfl⟩ := h1
  have hlt := lenAt_lt h.len
  rw [if_neg (Nat.not_lt_zero _), drop_zero, take_of_length_le (by omega)]
  exact .pure ⟨rfl, rfl⟩

section

variable (hst : st ≤ e) (hat : At s.cBuf e d) (hq : e + hdrSz + d.length = q)
include hst hat hq

theorem wp_iterNext_done : Wp (cbmemIterNext ⟨some st, some q, some e⟩)
      (.total fun r s' => r.1 = none ∧ s' = s) s := by
  unfold cbmemIterNext
  rw [if_neg (by simp only [ptrLt, decide_eq_true_eq]; omega)]
  refine .bind (.pure ?_)
  refine .bind_known (wp_entryNext hat) ?_
  rw [if_pos (congrArg some hq.symm)]
  exact .pure ⟨rfl, rfl⟩

theorem wp_iterNext_flat {d' : List UInt8} (hpq : p ≠ q) (hp : At s.cBuf p d') :
    Wp (cbmemIterNext ⟨some st, some p, some e⟩) (.total fun r s' => r = (some p,
        ⟨some st, some (p + hdrSz + d'.length), some e⟩) ∧ s' = s) s := by
  unfold cbmemIterNext
  rw [if_neg (by simp only [ptrLt, decide_eq_true_eq]; omega)]
  refine .bind (.pure ?_)
  refine .bind_known (wp_entryNext hat) ?_
  rw [if_neg (fun h => hpq ((some.inj h).trans hq))]
  refine .bind (.pure ?_)
  refine .bind_known (wp_entryNext hp) ?_
  exact .pure ⟨rfl, rfl⟩

end

theorem wp_iterNext_wrapped (hst : e < st) (hcur : s.cBufCurEnd = some c) (hp : At s.cBuf p d) :
    Wp (cbmemIterNext ⟨some st, some p, some e⟩)
      (.total fun r s' => r = (some p, if p + hdrSz + d.length = c then ⟨some 0, some 0, some e⟩
        else ⟨some st, some (p + hdrSz + d.length), some e⟩) ∧ s' = s) s := by
  unfold cbmemIterNext
  rw [if_pos (by simp only [ptrLt, decide_eq_true_eq]; omega)]
  refine .bind (.pure ?_)
  refine .bind_known (wp_entryNext hp) ?_
  refine .get_bind ?_
  rw [hcur]
  split
  · next h =>
    rw [if_pos (some.inj h)]
    exact .pure ⟨rfl, rfl⟩
  · next h =>
    rw [if_neg (fun he => h (congrArg some he))]
    exact .pure ⟨rfl, rfl⟩

/-- What a visitor has to do on each entry: leave the log alone and keep
`I`, which may depend on the entries visited so far, or stop the walk with
`J`. -/
def Visits {α : Type} (s : Cbmem) (f : Nat → α → CbmemM (Nat × α)) (I : List Visit → α → Prop)
    (J : α → Prop) : Prop :=
  ∀ seen arg (v : Visit), At s.cBuf v.hdr v.data → I seen arg →
    Wp (f v.hdr arg) (.total fun r s' => s' = s ∧
      if r.1 = 1 then J r.2 else I (seen ++ [v]) r.2) s

section Walk

variable {α : Type} {f : Nat → α → CbmemM (Nat × α)} {I : List Visit → α → Prop} {J : α → Prop}
  {arg : α} (hf : Visits s f I J) (hI : I seen arg)
include hf hI

/-- One turn of the walk that visits an entry. -/
theorem wp_walk_visit {iter iter' : CbmemIter} {Q : Post Cbmem Empty α}
    (hn : Wp (cbmemIterNext iter) (.total fun r s' => r = (some v.hdr, iter') ∧ s' = s) s)
    (hat : At s.cBuf v.hdr v.data) (hstop : ∀ r, J r → Q.ok r s)
    (h : ∀ arg, I (seen ++ [v]) arg → Wp (walkLoop f fuel iter' arg) Q s) :
    Wp (walkLoop f (fuel + 1) iter arg) Q s := by
  refine .bind_total hn fun _ s1 h1 => ?_
  obtain ⟨rfl, rfl⟩ := h1
  refine .bind_total (hf seen arg v hat hI) fun r s2 h2 => ?_
  obtain ⟨rfl, hr⟩ := h2
  dsimp only
  split at hr
  · next hone =>
    rw [if_pos hone]
    exact .pure (hstop _ hr)
  · next hone =>
    rw [if_neg hone]
    exact h _ hr

/-- The iterator has passed the logical end, or the log has none: it goes on
to the newest entry. -/
theorem wp_walkFlat (hst : st ≤ v.hdr)
    (hat : At s.cBuf v.hdr v.data) (hq : v.hdr + hdrSz + v.data.length = q)
    (hc : Chain s.cBuf p ws q) (hfuel : ws.length < fuel) :
    Wp (walkLoop f fuel ⟨some st, some p, some v.hdr⟩ arg)
      (.total fun r s' => s' = s ∧ (J r ∨ I (seen ++ ws) r)) s := by
  induction ws generalizing p fuel seen arg with
  | nil =>
    obtain _ | fuel := fuel
    · cases hfuel
    obtain rfl : p = q := hc
    refine .bind_total (wp_iterNext_done hst hat hq) fun r s1 h => ?_
    obtain ⟨hdr, iter⟩ := r
    obtain ⟨hnone, rfl⟩ := h
    obtain rfl : hdr = none := hnone
    rw [append_nil]
    exact .pure ⟨rfl, .inr hI⟩
  | cons w ws ih =>
    obtain _ | fuel := fuel
    · omega
    have hlt := hc.lt (cons_ne_nil w ws)
    obtain ⟨rfl, hw, hrest⟩ := hc
    refine wp_walk_visit hf hI (wp_iterNext_flat hst hat hq (ne_of_lt hlt) hw) hw
      (fun _ h => ⟨rfl, .inl h⟩) fun arg hI' => ?_
    rw [append_cons]
    exact ih hI' hrest (Nat.lt_of_succ_lt_succ hfuel)

/-- The iterator is among the older entries of a wrapped log. -/
theorem wp_walkWrapped (hst : v.hdr < st)
    (hcur : s.cBufCurEnd = some c) (hat : At s.cBuf v.hdr v.data)
    (hq : v.hdr + hdrSz + v.data.length = q) (hus : us ≠ [])
    (hu : Chain s.cBuf p us c) (hc : Chain s.cBuf 0 ws q) (hfuel : us.length + ws.length < fuel) :
    Wp (walkLoop f fuel ⟨some st, some p, some v.hdr⟩ arg)
      (.total fun r s' => s' = s ∧ (J r ∨ I (seen ++ (us ++ ws)) r)) s := by
  induction us generalizing p fuel seen arg with
  | nil => exact absurd rfl hus
  | cons u us ih =>
    obtain _ | fuel := fuel
    · omega
    obtain ⟨rfl, hat', hrest⟩ := hu
    refine wp_walk_visit hf hI (wp_iterNext_wrapped hst hcur hat') hat'
      (fun _ h => ⟨rfl, .inl h⟩) fun arg hI' => ?_
    simp only [length_cons] at hfuel
    rw [cons_append, append_cons]
    cases us with
    | nil =>
      rw [if_pos (show u.hdr + hdrSz + u.data.length = c from hrest)]
      exact (wp_walkFlat hf hI' (Nat.zero_le _) hat hq hc (by omega)).mono_ok fun _ _ => id
    | cons w us =>
      rw [if_neg (ne_of_lt (hrest.lt (cons_ne_nil w us)))]
      exact ih hI' (cons_ne_nil w us) hrest (by omega)

end Walk

/-- A walk visits the whole log, oldest entry first. -/
theorem wp_walk {α : Type} {f : Nat → α → CbmemM (Nat × α)} {I : List Visit → α → Prop}
    {J : α → Prop} {arg : α} (hf : Visits s f I J) (hI : I [] arg) (hl : Layout s vs)
    (hvs : vs ≠ []) : Wp (cbmemWalk f arg) (.total fun r s' => s' = s ∧ (J r ∨ I vs r)) s := by
  refine .bind (.get_bind (.pure (.get_bind ?_)))
  cases hl with
  | empty => exact absurd rfl hvs
  | @flat us v q hs he hc =>
    obtain ⟨hat, hq⟩ := hc.newest
    have hlen := hc.length_le
    have hin := hc.inside hvs
    rw [hs, he]
    exact (wp_walkFlat hf hI (Nat.zero_le _) hat hq hc (by omega)).mono_ok fun _ _ => id
  | wrapped hs he hcur hus hu hc hqa =>
    obtain ⟨hat, hq⟩ := hc.newest
    have hlen := hc.length_le
    have hlen' := hu.length_le
    have hin := hu.inside hus
    have hlt := (hc.mem (mem_append_right _ (mem_singleton_self _))).2
    rw [hs, he]
    exact (wp_walkWrapped hf hI (by omega) hcur hat hq hus hu hc (by omega)).mono_ok
      fun _ _ => id

theorem wp_cbmemWalk (hl : Layout s vs) (hvs : vs ≠ []) :
    Wp (cbmemWalk note []) (.total fun r s' => r = vs ∧ s' = s) s := by
  have hnote : Visits s note (fun seen arg => arg = seen) fun _ => False := by
    intro seen arg v hat hseen
    subst hseen
    refine (wp_note hat).mono_ok fun r s' h => ?_
    obtain ⟨rfl, rfl⟩ := h
    exact ⟨rfl, rfl⟩
  exact (wp_walk hnote rfl hl hvs).mono_ok fun r s' h => ⟨h.2.resolve_left id, h.1⟩

theorem entries_eq (hl : Layout s vs) (hvs : vs ≠ []) : s.entries = vs := by
  obtain ⟨r, s', hrun, rfl, -⟩ := (wp_cbmemWalk hl hvs).run_total
  unfold entries
  rw [hrun]

/-! ## The entries an append reads -/

theorem Layout.at_mem (hl : Layout s vs) (hv : v ∈ vs) : At s.cBuf v.hdr v.data := by
  cases hl with
  | empty => cases hv
  | flat _ _ hc => exact hc.at_mem hv
  | wrapped _ _ _ _ hu hc => exact (mem_append.mp hv).elim hu.at_mem hc.at_mem

/-- The headers that the loop of the append follows, from `start` on. -/
def followed (s : Cbmem) (stop : Nat) : Nat → Nat → List Nat
  | 0, _ => []
  | fuel + 1, start =>
    if start < stop then
      let next := start + (hdrSz + (lenAt s.cBuf start).getD 0)
      start :: if some next = s.cBufCurEnd then [] else followed s stop fuel next
    else []

/-- What an append of `len` bytes follows to find the entries that give way,
once it has wrapped if it has to. -/
def gaveWay (s : Cbmem) (len : Nat) : List Nat :=
  let s₁ := if s.Wraps len then { s with
    cBufCurEnd := some s.freeAt
    cEntryStart := s.cEntryStart.map fun a => if s.freeAt ≤ a then 0 else a } else s
  let dst := s.dstFor len
  match s₁.cEntryStart with
  | none => []
  | some a => if dst < a + (hdrSz + (lenAt s.cBuf a).getD 0) ∧ a < dst + len then
      s₁.followed (dst + len) (s.cBuf.length + 1) a else []

theorem followed_subset (hu : Chain s.cBuf a us c) (hcur : s.cBufCurEnd = some c) (hus : us ≠ []) :
    s.followed stop fuel a ⊆ us.map Visit.hdr := by
  induction fuel generalizing a us with
  | zero => exact nil_subset _
  | succ fuel ih =>
    cases us with
    | nil => exact absurd rfl hus
    | cons v us =>
      obtain ⟨rfl, hat, hrest⟩ := hu
      unfold followed
      rw [hat.len, getD_some, ← add_assoc]
      split
      · refine cons_subset.mpr ⟨mem_cons_self, ?_⟩
        split
        · exact nil_subset _
        · next hne =>
          refine Subset.trans (ih hrest ?_) (subset_cons_self ..)
          rintro rfl
          exact hne (by rw [hcur]; exact congrArg some hrest)
      · exact nil_subset _

theorem gaveWay_subset (hl : Layout s vs) : s.gaveWay n ⊆ vs.map Visit.hdr := by
  unfold gaveWay dstFor
  cases hl with
  | empty hs => split <;> simp [hs]
  | @flat us v q hs he hc =>
    rw [freeAt_eq he hc]
    by_cases hw : s.Wraps n
    · simp only [if_pos hw, hs, map_some, ite_self]
      split
      · exact followed_subset hc rfl (by simp)
      · exact nil_subset _
    · -- The oldest entry ends before the new one begins.
      obtain ⟨u, us', hu⟩ := exists_cons_of_ne_nil (show us ++ [v] ≠ [] by simp)
      rw [hu] at hc
      have hle := hc.2.2.le
      simp only [if_neg hw, hs, hc.2.1.len, getD_some]
      rw [if_neg (by omega)]
      exact nil_subset _
  | @wrapped us ws v a c q hs he hcur hus hu hc hqa =>
    rw [freeAt_eq he hc]
    by_cases hw : s.Wraps n
    · simp only [if_pos hw, hs, map_some, if_pos hqa]
      split
      · exact Subset.trans (followed_subset hc rfl (by simp)) (map_subset _ (subset_append_right ..))
      · exact nil_subset _
    · simp only [if_neg hw, hs]
      split
      · exact Subset.trans (followed_subset hu hcur hus) (map_subset _ (subset_append_left ..))
      · exact nil_subset _

/-! ## Runs -/

theorem Appended.suffix (h : Appended d us s s') (hsuf : us <:+ vs) : Appended d vs s s' := by
  obtain ⟨hl, us', v, h1, h2⟩ := h
  exact ⟨hl, us', v, h1.trans hsuf, h2⟩

/-- An append that wraps leaves entries of the front stretch only. -/
theorem wp_wrapped (hs : s.cEntryStart = some a)
    (ha : a = 0 ∨ q ≤ a) (hus : us ≠ []) (hc : Chain s.cBuf 0 us q)
    (hd : d.length < 2 ^ 16) (hfit : hdrSz + d.length ≤ s.cBuf.length)
    (hclear : ∀ v ∈ us, v.hdr < d.length ∨ hdrSz + d.length ≤ v.hdr) :
    Wp (wrap q) (.total fun dst s1 =>
      Wp (do moveStart dst (dst + d.length); copyIn dst d)
        (.total fun _ s' => Appended d us s s') s1) s := by
  have hmap : s.cEntryStart.map (fun a => if q ≤ a then 0 else a) = some 0 := by
    rw [hs, map_some]
    congr 1
    split <;> omega
  refine .modify_bind (.pure ?_)
  rw [hmap]
  have hnone : Chain s.cBuf 0 [] 0 := rfl
  have hplace := wp_place (s := { s with cBufCurEnd := some q, cEntryStart := some 0 }) hd
    (by simpa only [zero_add] using hfit)
    (by simpa only [zero_add] using hclear) rfl hus hc rfl hnone (le_refl 0)
  rw [append_nil] at hplace
  exact hplace

theorem wp_cbmemAppend (hl : Layout s vs) (h : AppendSafe s d) :
    Wp (cbmemAppend d) (.total fun _ s' => Appended d vs s s') s := by
  refine .get_bind ?_
  cases hl with
  | empty hs he =>
    have hnext : Wp nextDst (.total fun r s' => r = 0 ∧ s' = s) s := by
      refine .get_bind ?_
      rw [he]
      exact .pure ⟨rfl, rfl⟩
    refine .bind_total hnext fun _ s1 h1 => ?_
    obtain ⟨rfl, rfl⟩ := h1
    have hfit : hdrSz + d.length ≤ s1.cBuf.length := by
      have hfits := h.fits
      omega
    rw [if_neg (by omega)]
    exact .bind (.pure (wp_placeFirst h.len hfit hs))
  | @flat us v q hs he hc =>
    have hent := entries_eq (.flat hs he hc) (by simp)
    have hfree := freeAt_eq he hc
    refine .bind_known (wp_nextDst he hc) ?_
    by_cases hw : s.Wraps d.length
    · obtain ⟨hfit, hclear⟩ := h.wraps hw
      rw [hent, hfree] at hclear
      rw [if_pos (hfree ▸ hw)]
      exact .bind (wp_wrapped hs (.inl rfl) (by simp) hc h.len hfit
        fun w hmem => hclear w hmem (hc.mem hmem).2)
    · obtain ⟨hfit, -⟩ := h.goesOn hw
      rw [hfree] at hfit
      rw [if_neg (hfree ▸ hw)]
      exact .bind (.pure (wp_placeBehind h.len hfit hs (by simp) hc))
  | @wrapped us ws v a c q hs he hcur hus hu hc hqa =>
    have hent := entries_eq (.wrapped hs he hcur hus hu hc hqa) (by simp)
    have hfree := freeAt_eq he hc
    refine .bind_known (wp_nextDst he hc) ?_
    by_cases hw : s.Wraps d.length
    · obtain ⟨hfit, hclear⟩ := h.wraps hw
      rw [hent, hfree] at hclear
      rw [if_pos (hfree ▸ hw)]
      have hwrap := wp_wrapped hs (.inr hqa) (by simp) hc h.len hfit
        fun w hmem => hclear w (mem_append_right us hmem) (hc.mem hmem).2
      refine .bind_total hwrap fun dst s2 h2 => ?_
      exact h2.mono_ok fun _ _ h =>
        h.suffix (suffix_append us (ws ++ [v]))
    · obtain ⟨hfit, hclear⟩ := h.goesOn hw
      rw [hent, hfree] at hclear
      rw [hfree] at hfit
      rw [if_neg (hfree ▸ hw)]
      exact .bind (.pure (wp_place h.len hfit
        (fun w hmem => hclear w (mem_append_left _ hmem)) hs hus hu hcur hc hqa))

end Cbmem

namespace CbmemOp

/-- A flush is always safe, an append as `AppendSafe` says. -/
def Safe (s : Cbmem) : CbmemOp → Prop
  | append d => s.AppendSafe d
  | flush => True

/-- The state a step leaves. -/
def next (s : Cbmem) (op : CbmemOp) : Cbmem :=
  match op.run s none with
  | .ok _ s' _ => s'
  | _ => s

/-- The entries appended since the last flush, after one more step. -/
def log (since : List (List UInt8)) : CbmemOp → List (List UInt8)
  | append d => since ++ [d]
  | flush => []

end CbmemOp

namespace Cbmem

/-- The states that safe steps lead to, with the entries appended since the
last flush. -/
inductive Reached : List (List UInt8) → Cbmem → Prop
  | init (buf : List UInt8) : Reached [] (cbmemInit buf)
  | step {since s op s'} (h : Reached since s) (hsafe : op.Safe s)
      (hrun : CbmemOp.run op s none = .ok () s' none) : Reached (op.log since) s'

/-- The log holds a suffix of what was appended, with the newest entry. -/
def Holds (since : List (List UInt8)) (s : Cbmem) : Prop :=
  ∃ vs, Layout s vs ∧ vs.map (·.data) <:+ since ∧ (since ≠ [] → vs ≠ [])

variable {since : List (List UInt8)}

theorem wp_run {op : CbmemOp} (h : Holds since s) (hsafe : op.Safe s) :
    Wp op.run (.total fun _ s' => Holds (op.log since) s') s := by
  obtain ⟨vs, hl, hsuf, -⟩ := h
  cases op with
  | append d =>
    refine (wp_cbmemAppend hl hsafe).mono_ok fun _ s' h => ?_
    obtain ⟨-, vs', v, hsuf', rfl, hl'⟩ := h
    refine ⟨vs' ++ [v], hl', ?_, fun _ => by simp⟩
    obtain ⟨pre, hpre⟩ := (hsuf'.map Visit.data).trans hsuf
    refine ⟨pre, ?_⟩
    rw [map_append, ← append_assoc, hpre]
    rfl
  | flush =>
    exact .modify ⟨[], .empty rfl rfl, suffix_refl [], fun h => absurd rfl h⟩

theorem Reached.holds (h : Reached since s) : Holds since s := by
  induction h with
  | init buf =>
    exact ⟨[], .empty rfl rfl, suffix_refl [], fun h => absurd rfl h⟩
  | step _ hsafe hrun ih =>
    obtain ⟨_, s1, hrun', hh⟩ := (wp_run ih hsafe).run_total
    rw [hrun'] at hrun
    cases hrun
    exact hh

/-- After any run of safe steps, every further safe step completes, and a
walk over a log that is not empty visits a suffix of the entries appended
since the last flush, oldest first, up to and with the newest, each with its
length and bytes. -/
theorem walk_visits_newest {since : List (List UInt8)} (h : Reached since s) :
    (∀ op : CbmemOp, op.Safe s → ∃ s', op.run s none = .ok () s' none) ∧
      (since ≠ [] → ∃ vs, cbmemWalk note [] s none = .ok vs s none ∧
        vs ≠ [] ∧ vs.map (·.data) <:+ since) := by
  refine ⟨fun op hsafe => ?_, fun hne => ?_⟩
  · obtain ⟨_, s', hrun, -⟩ := (wp_run h.holds hsafe).run_total
    exact ⟨s', hrun⟩
  · obtain ⟨vs, hl, hsuf, hvs⟩ := h.holds
    obtain ⟨r, s', hrun, rfl, rfl⟩ := (wp_cbmemWalk hl (hvs hne)).run_total
    exact ⟨r, hrun, hvs hne, hsuf⟩

theorem Reached.next (h : Reached since s)
    (op : CbmemOp) (hsafe : op.Safe s) : Reached (op.log since) (op.next s) := by
  obtain ⟨_, s', hrun, -⟩ := (wp_run h.holds hsafe).run_total
  have hnext : op.next s = s' := by
    unfold CbmemOp.next
    rw [hrun]
  rw [hnext]
  exact h.step hsafe hrun

/-- In every state that safe steps lead to, the next safe step completes: it
writes and reads inside the buffer, and its loop ends. The headers it reads
its loop follows are those of appended entries of which every byte is there. A walk over a log
that is not empty reads inside the buffer as well, whatever its visitor reads
of the entries and wherever it stops. -/
theorem log_stays_inside (h : Reached since s) :
    (∀ op : CbmemOp, op.Safe s → ∃ s', op.run s none = .ok () s' none) ∧
    (∀ len, ∀ x ∈ s.gaveWay len, ∃ d ∈ since, At s.cBuf x d) ∧
    (since ≠ [] → ∀ (α : Type) (off len : α → Nat)
      (next : Nat → α → Option (List UInt8) → Nat × α) (arg : α), ∃ r, cbmemWalk (fun hdr arg => do
        let data ← cbmemRead hdr (off arg) (len arg)
        pure (next hdr arg data)) arg s none = .ok r s none) := by
  obtain ⟨vs, hl, hsuf, hvs⟩ := h.holds
  refine ⟨fun op hsafe => ?_, fun len x hx => ?_, fun hne α off len next arg => ?_⟩
  · obtain ⟨_, s', hrun, -⟩ := (wp_run h.holds hsafe).run_total
    exact ⟨s', hrun⟩
  · obtain ⟨v, hv, rfl⟩ := mem_map.mp (gaveWay_subset hl hx)
    exact ⟨v.data, hsuf.subset (mem_map_of_mem hv), hl.at_mem hv⟩
  have hread : Visits s (fun hdr arg => do
      let data ← cbmemRead hdr (off arg) (len arg)
      pure (next hdr arg data)) (fun _ _ => True) fun _ => True := by
    intro _ arg v hat _
    refine .bind_total (wp_cbmemRead hat _ _) fun _ s1 h1 => .pure ⟨h1.2, ?_⟩
    split <;> trivial
  obtain ⟨r, s', hrun, rfl, -⟩ := (wp_walk hread trivial hl (hvs hne)).run_total
  exact ⟨r, hrun⟩

/-- Three entries fill a buffer, and a fourth takes the place of the
oldest. -/
theorem walk_visits_newest_three :
    ∃ s vs, Reached [[1, 1, 1, 1], [2, 2, 2, 2], [3, 3, 3, 3], [4, 4, 4]] s ∧
      cbmemWalk note [] s none = .ok vs s none ∧ vs ≠ [] ∧ vs.map (·.data) <:+
        [[1, 1, 1, 1], [2, 2, 2, 2], [3, 3, 3, 3], [4, 4, 4]] := by
  have h0 := Reached.init (replicate 24 0)
  have h1 := h0.next (.append [1, 1, 1, 1]) (show AppendSafe _ _ by decide +kernel)
  have h2 := h1.next (.append [2, 2, 2, 2]) (show AppendSafe _ _ by decide +kernel)
  have h3 := h2.next (.append [3, 3, 3, 3]) (show AppendSafe _ _ by decide +kernel)
  have h4 := h3.next (.append [4, 4, 4]) (show AppendSafe _ _ by decide +kernel)
  obtain ⟨vs, hvs⟩ := (walk_visits_newest h4).2 (by simp [CbmemOp.log])
  exact ⟨_, vs, h4, hvs⟩

/-- Two entries of four bytes in a buffer of twenty-four. -/
theorem log_stays_inside_two : ∃ s, Reached [[1, 1, 1, 1], [2, 2, 2, 2]] s ∧
    ∀ len, ∀ x ∈ s.gaveWay len, ∃ d ∈ [[1, 1, 1, 1], [2, 2, 2, 2]], At s.cBuf x d := by
  have h1 := (Reached.init (replicate 24 0)).next (.append [1, 1, 1, 1])
    (show AppendSafe _ _ by decide +kernel)
  have h2 := h1.next (.append [2, 2, 2, 2]) (show AppendSafe _ _ by decide +kernel)
  exact ⟨_, h2, (log_stays_inside h2).2.1⟩

/-- The third entry of four bytes is written past the end of a buffer of
twenty. -/
theorem append_past_end : (do
      cbmemAppend [1, 1, 1, 1]
      cbmemAppend [2, 2, 2, 2]
      cbmemAppend [3, 3, 3, 3] : CbmemM _) (cbmemInit (replicate 20 0)) none = .abort := by
  decide +kernel

/-- Where the four bytes are not clear: an entry of five bytes replaces the
oldest of three and runs into the header of the next, so that the walk sees
the other two as one. A third entry of four bytes in a buffer of twenty runs
past its end. And a walk over an empty log goes through a null pointer. -/
theorem append_forgets_header : (∃ s, (do
      cbmemAppend [1, 1, 1, 1]
      cbmemAppend [2, 2, 2, 2]
      cbmemAppend [3, 3, 3, 3]
      cbmemAppend [4, 4, 4, 4, 12]
      cbmemWalk note [] : CbmemM _) (cbmemInit (replicate 24 0)) none
        = .ok [⟨8, [2, 2, 2, 2, 4, 0, 0, 0, 3, 3, 3, 3]⟩, ⟨0, [4, 4, 4, 4, 12]⟩] s none) ∧
    ¬ [[2, 2, 2, 2, 4, 0, 0, 0, 3, 3, 3, 3], [4, 4, 4, 4, 12]] <:+
      ([[1, 1, 1, 1], [2, 2, 2, 2], [3, 3, 3, 3], [4, 4, 4, 4, 12]] : List (List UInt8)) ∧ (do
      cbmemAppend [1, 1, 1, 1]
      cbmemAppend [2, 2, 2, 2]
      cbmemAppend [3, 3, 3, 3] : CbmemM _) (cbmemInit (replicate 20 0)) none = .abort ∧
    cbmemWalk note [] (cbmemInit (replicate 20 0)) none = .abort := by
  refine ⟨⟨⟨some 8, some 0, some 24, [5, 0, 0, 0, 4, 4, 4, 4, 12, 0, 0, 0,
    2, 2, 2, 2, 4, 0, 0, 0, 3, 3, 3, 3]⟩, ?_⟩, ?_, ?_, ?_⟩ <;> decide +kernel

end Cbmem

end Larva.Util
