import Larva.Boot.Recovery

/-!
# A test image is booted once

The main vector names the image in slot 0 and the test vector the one in
slot 1. The first call of `boot_go` that returns exchanges the images and
deletes the test vector; the next one finds only the main vector, whose image
is in slot 1 by then, and exchanges them back; from there on the image in
slot 0 is the one that is named.

Both exchanges are the one that `Recovery` is about: the second starts on
the disk that the first left, with the images' numbers changed over. The
later calls need no argument of their own. The disk they start on is one on
which the second exchange is complete, so that they are calls that resume it
and find nothing to do.

Two things can go wrong. A call may be started on a status that `Recovery`
calls stranded. And `boot_go` deletes the test vector before it returns: a
reset between the two has used the test up, though nothing was reported.
-/

namespace Larva.Boot

open Larva.Crash

section Setting

variable {req : BootReq} (L : Layout req)

/-- Two images that can be exchanged, the one in slot 1 to be tested. -/
structure OnTest (d : Disk) : Prop where
  ready : Ready L d
  test : vectVersion d.test = some (L.header d true).ihVer
  main : vectVersion d.main = some (L.header d false).ihVer

/-- A status file with a part in the scratch area while another area of
slot 0 waits to be swapped, told by what the file itself records. -/
def StrandedStatus (d : Disk) : Prop :=
  ∃ f e, d.status = some f ∧ f.entries[L.pos .scratch]? = some e ∧
    e.bseImageNum ≠ bootImageNumNone ∧ ∃ l, l < L.parts f.bsImg2Length ∧
      f.entries[L.pos (.slot false l)]? = some ⟨0, l⟩

/-- The report of the image that was in slot 0 of `d`. -/
def Layout.mainResponse (d : Disk) : BootRsp :=
  ⟨L.header d false, L.dev false, L.base false⟩

/-- The reports of the first `n` calls that return. -/
def Layout.reports (d : Disk) : Nat → List BootRsp
  | 0 => []
  | k + 1 => L.response d :: List.replicate k (L.mainResponse d)

/-- Each image is in its own slot, byte for byte. -/
def InPlace (d₀ d : Disk) : Prop :=
  ∀ b k, k < L.imageParts d₀ b → L.Holds d (.slot b k) (L.byte d₀ (.slot b k))

/-- Runs of calls of `boot_go` with what they reported. A call is cut by a
reset, or it returns, or the reset falls after its last storage operation and
before it returns (`late`). None is started on a stranded status, and no late
reset hits a call that found a test vector. -/
inductive Boots (d₀ : Disk) : List BootRsp → Disk → Prop
  | start : Boots d₀ [] d₀
  | cut {rs : List BootRsp} {d : Disk} {n : Nat} {s : St} : Boots d₀ rs d → ¬ StrandedStatus L d →
      d.bootGo req (some n) = .cut s → Boots d₀ rs s.disk
  | late {rs : List BootRsp} {d : Disk} {left left' : Option Nat} {rsp : BootRsp} {s : St} :
      Boots d₀ rs d → ¬ StrandedStatus L d → d.test = .none →
      d.bootGo req left = .ok rsp s left' → Boots d₀ rs s.disk
  | boot {rs : List BootRsp} {d : Disk} {left left' : Option Nat} {rsp : BootRsp} {s : St} :
      Boots d₀ rs d → ¬ StrandedStatus L d →
      d.bootGo req left = .ok rsp s left' → Boots d₀ (rs ++ [rsp]) s.disk

end Setting

/-! ## The disk after the first exchange -/

section Exchanged

variable {req : BootReq} {L : Layout req} {d₀ d d₁ : Disk}

theorem Layout.reports_succ (n : Nat) :
    L.reports d (n + 1) ++ [L.mainResponse d] = L.reports d (n + 2) := by
  simp only [Layout.reports, List.cons_append, List.replicate_succ']

theorem imageParts_swapped (h₀ : Ready L d₀) (hK : Keeps L (L.images d₀) swapped d₁) (b : Bool) :
    L.imageParts d₁ b = L.imageParts d₀ (!b) := by
  rw [Layout.imageParts, Layout.imageParts, header_swapped h₀ hK]

/-- The images can be exchanged again: the main vector names the one that is
in slot 1 now. -/
theorem Booted.ready (h₀ : Ready L d₀) (hB : Booted L d₀ d d₁)
    (hmain : vectVersion d.main = some (L.header d₀ false).ihVer) : Ready L d₁ := by
  have hd := header_swapped h₀ hB.keeps
  constructor
  · intro b
    rw [hd]
    exact h₀.magic (!b)
  · intro b
    rw [hd]
    exact h₀.hdrSize (!b)
  · rw [hd, hd]
    exact h₀.versions.symm
  · intro b c
    rw [imageParts_swapped h₀ hB.keeps]
    exact h₀.fits (!b) c
  · exact hB.status
  · refine .inr ⟨by rw [hB.test]; simp [vectVersion], ?_⟩
    rw [hB.main, hmain, hd]
    rfl

theorem Booted.headerFits (h₀ : Ready L d₀) (hh : HeaderFits L d₀)
    (hB : Booted L d₀ d d₁) : HeaderFits L d₁ := by
  intro b
  rw [imageParts_swapped h₀ hB.keeps, header_swapped h₀ hB.keeps]
  exact hh (!b)

/-- What is at a place as the second exchange wants it is so as the first
one's images have it. -/
theorem holds_of_swapped (hK : Keeps L (L.images d₀) swapped d₁) {b : Bool}
    {k : Nat} (hk : k < L.imageParts d₀ b) {p : Place}
    (h : L.Holds d p (L.byte d₁ (.slot (!b) k))) : L.Holds d p (L.byte d₀ (.slot b k)) := by
  intro o ho
  exact (h o ho).trans (hK.swapped b k hk o ho)

section

variable (h₀ : Ready L d₀) (hK : Keeps L (L.images d₀) swapped d₁)
include h₀ hK

theorem Kept.of_swapped (h : Kept L d₁ d) : Kept L d₀ d := by
  obtain ⟨W, hP, hW⟩ := h
  have hn : ∀ {b k}, k < L.imageParts d₀ b → k < L.imageParts d₁ (!b) := by
    intro b k hk
    rw [imageParts_swapped h₀ hK, Bool.not_not]
    exact hk
  refine ⟨fun b k => W (!b) k, ⟨fun b k hk => hP.ok (!b) k (hn hk), ?_⟩, ?_⟩
  · intro b k c l hk hl he
    obtain ⟨hb, hkl⟩ := hP.inj (!b) k (!c) l (hn hk) (hn hl) he
    exact ⟨Bool.not_inj hb, hkl⟩
  · intro b k hk
    exact holds_of_swapped hK hk (hW (!b) k (hn hk))

/-- After the second exchange every image is where it was at first. -/
theorem InPlace.of_swapped (h : Keeps L (L.images d₁) swapped d) : InPlace L d₀ d := by
  intro b k hk
  have hk' : k < L.imageParts d₁ (!b) := by
    rw [imageParts_swapped h₀ hK, Bool.not_not]
    exact hk
  have hb := h.swapped (!b) k hk'
  rw [Bool.not_not] at hb
  exact holds_of_swapped hK hk hb

end

/-- A status that resets can leave is stranded only if it says so itself. -/
theorem Stranded.status (hh : HeaderFits L d₀) (hrec : Recoverable L d₀ d)
    (h : Stranded L d₀ d) : StrandedStatus L d := by
  obtain ⟨f, e, hf, he, hne, l, hl, hel⟩ := h
  refine ⟨f, e, hf, he, hne, l, ?_, hel⟩
  obtain ⟨_, _, -, -, rfl, -⟩ := hrec.midway hf
  exact (hh true).symm ▸ hl

end Exchanged

/-! ## Runs -/

section Runs

variable {req : BootReq} {L : Layout req} {d₀ d : Disk} {rs : List BootRsp}

variable (L d₀) in
/-- What a run keeps: before the first report the first exchange is under
way, after it the second one is, or is complete. -/
inductive Stage : List BootRsp → Disk → Prop
  | first {d : Disk} : Recoverable L d₀ d → Stage [] d
  | second {d d₁ : Disk} (n : Nat) : Ready L d₁ → HeaderFits L d₁ →
      Keeps L (L.images d₀) swapped d₁ → Recoverable L d₁ d → Stage (L.reports d₀ (n + 1)) d

theorem response_swapped (h₀ : Ready L d₀) {d₁ : Disk} (hK : Keeps L (L.images d₀) swapped d₁) :
    L.response d₁ = L.mainResponse d₀ := by
  rw [Layout.response, Layout.mainResponse, header_swapped h₀ hK]
  rfl

/-- An exchange stays complete as long as the main vector asks for it. -/
theorem Booted.recoverable {d' : Disk} (hB : Booted L d₀ d d')
    (hm : vectVersion d.main = some (L.header d₀ true).ihVer) : Recoverable L d₀ d' := by
  refine ⟨.inr ⟨by rw [hB.test]; simp [vectVersion], ?_⟩, .inr ⟨hB.status, hB.keeps⟩⟩
  rw [hB.main, hm]

/-- While the test is still to come, its vector is there. -/
theorem test_ne_none (h₀ : Ready L d₀) (hrec : Recoverable L d₀ d)
    (hm : vectVersion d.main = some (L.header d₀ false).ihVer) : d.test ≠ .none := by
  intro ht
  rcases hrec.1 with h | ⟨-, h⟩
  · rw [ht] at h
    simp [vectVersion] at h
  · rw [hm] at h
    exact h₀.versions (Option.some.inj h)

theorem Stage.kept (h₀ : Ready L d₀) (h : Stage L d₀ rs d) : Kept L d₀ d := by
  cases h with
  | first hrec => exact hrec.kept h₀
  | second n h₁ _ hK hrec => exact (hrec.kept h₁).of_swapped h₀ hK

theorem Stage.reports (h : Stage L d₀ rs d) : rs = L.reports d₀ rs.length := by
  cases h with
  | first _ => rfl
  | second n _ _ _ _ => simp [Layout.reports]

variable (L d₀) in
/-- How one call ends that starts when `rs` has been reported. -/
inductive Ends (rs : List BootRsp) (d : Disk) (left : Option Nat) : Prop
  | cut {n : Nat} {s : St} : left = some n → d.bootGo req left = .cut s →
      Stage L d₀ rs s.disk → s.disk.main = d.main → Ends rs d left
  | test {s : St} {left' : Option Nat} : rs = [] → d.test ≠ .none →
      d.bootGo req left = .ok (L.response d₀) s left' →
      Swapped L d₀ s.disk → Stage L d₀ [L.response d₀] s.disk →
      s.disk.main = d.main → Ends rs d left
  | main {s : St} {left' : Option Nat} : rs ≠ [] →
      d.bootGo req left = .ok (L.mainResponse d₀) s left' →
      InPlace L d₀ s.disk → Stage L d₀ rs s.disk → Stage L d₀ (rs ++ [L.mainResponse d₀]) s.disk →
      s.disk.main = d.main → Ends rs d left

/-- One call, from any stage. -/
theorem Stage.ends (h₀ : Ready L d₀) (hh : HeaderFits L d₀) (h : Stage L d₀ rs d)
    (hm : vectVersion d.main = some (L.header d₀ false).ihVer) (hs : ¬ StrandedStatus L d)
    (left : Option Nat) : Ends L d₀ rs d left := by
  cases h with
  | first hrec =>
    rcases bootGo_ends h₀ hh hrec (fun h => hs (h.status hh hrec)) left with
      ⟨n, s, hl, ho, hrec', hmain⟩ | ⟨s, left', ho, hB⟩
    · exact .cut hl ho (.first hrec') hmain
    · have h₁ := hB.ready h₀ hm
      exact .test rfl (test_ne_none h₀ hrec hm) ho hB.keeps.swapped
        (.second 0 h₁ (hB.headerFits h₀ hh) hB.keeps h₁.recoverable) hB.main
  | @second _ d₁ n h₁ hh₁ hK hrec =>
    have hd1 : L.header d₁ true = L.header d₀ false := header_swapped h₀ hK true
    rcases bootGo_ends h₁ hh₁ hrec (fun h => hs (h.status hh₁ hrec)) left with
      ⟨k, s, hl, ho, hrec', hmain⟩ | ⟨s, left', ho, hB⟩
    · exact .cut hl ho (.second n h₁ hh₁ hK hrec') hmain
    rw [response_swapped h₀ hK] at ho
    have hrec' := hB.recoverable (hd1.symm ▸ hm)
    have hnext : Stage L d₀ (L.reports d₀ (n + 2)) s.disk :=
      .second (n + 1) h₁ hh₁ hK hrec'
    rw [← Layout.reports_succ] at hnext
    exact .main (by simp [Layout.reports]) ho
      (.of_swapped h₀ hK hB.keeps) (.second n h₁ hh₁ hK hrec') hnext hB.main

/-- A whole run: the stage it has come to, and the main vector unchanged. -/
theorem Boots.stage (h₀ : OnTest L d₀) (hh : HeaderFits L d₀) (h : Boots L d₀ rs d) :
    Stage L d₀ rs d ∧ vectVersion d.main = some (L.header d₀ false).ihVer := by
  induction h with
  | start => exact ⟨.first h₀.ready.recoverable, h₀.main⟩
  | @cut rs d n s _ hs ho ih =>
    obtain ⟨hst, hm⟩ := ih
    cases hst.ends h₀.ready hh hm hs (some n) with
    | cut _ ho' hst' hmain =>
      rw [ho] at ho'
      cases ho'
      exact ⟨hst', hmain ▸ hm⟩
    | test _ _ ho' => rw [ho] at ho'; cases ho'
    | main _ ho' => rw [ho] at ho'; cases ho'
  | @late rs d left left' rsp s _ hs ht ho ih =>
    obtain ⟨hst, hm⟩ := ih
    cases hst.ends h₀.ready hh hm hs left with
    | cut _ ho' => rw [ho] at ho'; cases ho'
    | test _ ht' => exact absurd ht ht'
    | main _ ho' _ hst' _ hmain =>
      rw [ho] at ho'
      cases ho'
      exact ⟨hst', hmain ▸ hm⟩
  | @boot rs d left left' rsp s _ hs ho ih =>
    obtain ⟨hst, hm⟩ := ih
    cases hst.ends h₀.ready hh hm hs left with
    | cut _ ho' => rw [ho] at ho'; cases ho'
    | test hrs _ ho' _ hst' hmain =>
      rw [ho] at ho'
      cases ho'
      subst hrs
      exact ⟨hst', hmain ▸ hm⟩
    | main _ ho' _ _ hst' hmain =>
      rw [ho] at ho'
      cases ho'
      exact ⟨hst', hmain ▸ hm⟩

/-- Along every run, the first call that returns reports the image under test
and every later one the main image; no part of either image is ever lost; and
a call that is not cut returns, with the images exchanged the first time and
back in their own slots from then on. -/
theorem test_image_booted_once (h₀ : OnTest L d₀) (hh : HeaderFits L d₀)
    {rs : List BootRsp} (h : Boots L d₀ rs d) : rs = L.reports d₀ rs.length ∧ Kept L d₀ d ∧
    (¬ StrandedStatus L d → ∀ left, (∃ n s, left = some n ∧ d.bootGo req left = .cut s) ∨
      (rs = [] ∧ ∃ s left', d.bootGo req left = .ok (L.response d₀) s left' ∧ Swapped L d₀ s.disk) ∨
      (rs ≠ [] ∧ ∃ s left', d.bootGo req left =
        .ok (L.mainResponse d₀) s left' ∧ InPlace L d₀ s.disk)) := by
  obtain ⟨hst, hm⟩ := h.stage h₀ hh
  refine ⟨hst.reports, hst.kept h₀.ready, fun hs left => ?_⟩
  cases hst.ends h₀.ready hh hm hs left with
  | cut hl ho => exact .inl ⟨_, _, hl, ho⟩
  | test hrs _ ho hsw => exact .inr (.inl ⟨hrs, _, _, ho, hsw⟩)
  | main hrs ho hin => exact .inr (.inr ⟨hrs, _, _, ho, hin⟩)

end Runs

/-! ## The layout with two areas to a slot -/

/-- Version 1 in slot 0 is the main image, version 2 in slot 1 is to be
tested. -/
def twoAreaTest : Disk :=
  { twoAreaDisk with
    test := some (.version ⟨2, 0, 0, 0⟩)
    main := some (.version ⟨1, 0, 0, 0⟩) }

theorem twoAreaTest_onTest : OnTest twoAreaLayout twoAreaTest where
  ready :=
    { magic := by decide +kernel
      hdrSize := by decide +kernel
      versions := by decide +kernel
      fits := by decide +kernel
      status := rfl
      selects := .inl (by decide +kernel) }
  test := by decide +kernel
  main := by decide +kernel

theorem twoAreaTest_headerFits : HeaderFits twoAreaLayout twoAreaTest := by
  unfold HeaderFits
  decide +kernel

theorem not_strandedStatus {req : BootReq} {L : Layout req} {d : Disk}
    (h : d.status = .none) : ¬ StrandedStatus L d := by
  intro ⟨f, e, hf, _⟩
  rw [h] at hf
  cases hf

/-- The first call, not cut, reports the image under test and leaves both
images exchanged. -/
theorem test_image_booted_once_twoArea : ∃ s left, twoAreaTest.bootGo twoAreaReq none =
      .ok (twoAreaLayout.response twoAreaTest) s left ∧ Swapped twoAreaLayout twoAreaTest s.disk ∧
    Kept twoAreaLayout twoAreaTest s.disk := by
  obtain ⟨-, -, hcall⟩ := test_image_booted_once twoAreaTest_onTest twoAreaTest_headerFits .start
  rcases hcall (not_strandedStatus rfl) none with
    ⟨n, _, hn, -⟩ | ⟨-, s, left, ho, hsw⟩ | ⟨hne, -⟩
  · cases hn
  · obtain ⟨-, hk, -⟩ := test_image_booted_once twoAreaTest_onTest
      twoAreaTest_headerFits (.boot .start (not_strandedStatus rfl) ho)
    exact ⟨s, left, ho, hsw, hk⟩
  · exact absurd rfl hne

/-- What a call reports that follows one whose return a reset has eaten. -/
def reportAfterLate (req : BootReq) : Out St BootErr BootRsp → Option BootRsp
  | .ok _ s _ =>
    match s.disk.bootGo req none with
    | .ok rsp _ _ => some rsp
    | _ => .none
  | _ => .none

theorem exists_report {req : BootReq} {o : Out St BootErr BootRsp}
    {r : BootRsp} (h : reportAfterLate req o = some r) : ∃ rsp s left s' left', o = .ok rsp s left ∧
      s.disk.bootGo req none = .ok r s' left' := by
  cases o with
  | ok rsp s left =>
    simp only [reportAfterLate] at h
    split at h
    · next r' s' left' ho =>
      cases h
      exact ⟨rsp, s, left, s', left', rfl, ho⟩
    · cases h
  | _ => cases h

/-- Both ways to fail. After a reset that follows the first status write the
next call, though it is not cut, returns `BOOT_EBADIMAGE`. After a reset
between the deletion of the test vector and the return of `boot_go`, the
first call that returns reports the main image. -/
theorem test_image_not_booted :
    OnTest twoAreaLayout twoAreaTest ∧ HeaderFits twoAreaLayout twoAreaTest ∧
    (∃ s s' left, twoAreaTest.bootGo twoAreaReq (some 3) = .cut s ∧
      s.disk.bootGo twoAreaReq none = .err .ebadimage s' left) ∧
    ∃ rsp s left s' left', twoAreaTest.bootGo twoAreaReq none = .ok rsp s left ∧
      s.disk.bootGo twoAreaReq none =
        .ok (twoAreaLayout.mainResponse twoAreaTest) s' left' :=
  ⟨twoAreaTest_onTest, twoAreaTest_headerFits,
    exists_error (by decide +kernel), exists_report (by decide +kernel)⟩

end Larva.Boot
