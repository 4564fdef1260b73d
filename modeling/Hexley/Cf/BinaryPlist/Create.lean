import Hexley.Cf.BinaryPlist.Bounds
import Mathlib.Data.Finset.Card
import Mathlib.Logic.Relation

/-!
`__CFBinaryPlistCreateObject2` ends, and it does not succeed on a cycle.

The references of the containers are a relation between offsets, and the
recursion follows it. The first sixteen calls keep no record of where they
are. From the seventeenth on the offsets of the containers on the path are
in `set`, and a container that is already there is refused. So the offsets
in `set` are different, and there are at most as many of them as there are
containers to be found.

What has been read with success has only finite paths below it: this holds
for a container if it holds for everything it refers to, and for what is in
the cache because it was read before. The recursion carries any property of
offsets that is inherited in this way.
-/

namespace Hexley.Cf.BinaryPlist

open Lib Relation ReadState List

variable {b : Buffer} {t : Trailer} {option : Mutability} {marker : UInt8} {start : ℕ}

def IsContainer (b : Buffer) (t : Trailer) (off : ℕ) : Prop :=
  ¬(off < 8 ∨ t.offsetTableOffset - 1 < off) ∧
    ∃ marker, b.deref (b.ptr off) = .ok marker ∧ (Kind.of marker).isContainer = true

/-- The container at the offset `off` has a reference to the object at the
offset `off'`. -/
def Refers (b : Buffer) (t : Trailer) (off off' : ℕ) : Prop :=
  ¬(off < 8 ∨ t.offsetTableOffset - 1 < off) ∧
    ∃ marker ptr cnt, b.deref (b.ptr off) = .ok marker ∧ (Kind.of marker).isContainer = true ∧
      readContainer b t marker (b.ptr off) = .ok (ptr, cnt) ∧
      ∃ i < cnt, getOffsetOfRefAt b t (ptr + i * t.objectRefSize) = .ok off'

abbrev Finite (b : Buffer) (t : Trailer) (off : ℕ) : Prop :=
  Acc (fun off' off => Refers b t off off') off

variable {off : ℕ}

theorem not_finite_of_cycle {c : ℕ} (hreach : ReflTransGen (Refers b t) off c)
    (hcycle : TransGen (Refers b t) c c) : ¬Finite b t off := by
  intro hfin
  have hc : Finite b t c := by
    clear hcycle
    induction hreach with
    | refl => exact hfin
    | tail _ hstep ih => exact ih.inv hstep
  have hswap : TransGen (Function.swap (Refers b t)) c c := transGen_swap.mpr hcycle
  have htrans : Acc (TransGen (Function.swap (Refers b t))) c := hc.transGen
  induction htrans with
  | intro c _ ih => exact ih c hswap (hreach.trans hcycle.to_reflTransGen) hcycle hc hswap

/-! ### A call that ends -/

def Ends {α : Type} (r : Outcome α × ReadState) (Q : α → ReadState → Prop)
    (F : ReadState → Prop) : Prop :=
  match r with
  | (.ok a, s) => Q a s
  | (.failed, s) => F s
  | (.fault, _) => False
  | (.exhausted, _) => False

theorem Ends.mono {α : Type} {r : Outcome α × ReadState} {Q Q' : α → ReadState → Prop}
    {F F' : ReadState → Prop} (h : Ends r Q F) (hQ : ∀ a s, Q a s → Q' a s) (hF : ∀ s, F s → F' s) :
    Ends r Q' F':= by
  obtain ⟨o, s⟩ := r
  cases o with
  | ok a => exact hQ a s h
  | failed => exact hF s h
  | fault => exact h.elim
  | exhausted => exact h.elim

variable {s : ReadState}

theorem readRefs_ends (ht : Accepted b t) {create : ℕ → ReadState → Outcome Plist × ReadState}
    {P F : ReadState → Prop} {A : ℕ → Prop} (hfail : ∀ s, P s → F s) {cnt ptr : ℕ}
    (hcreate : ∀ i < cnt, ∀ off, getOffsetOfRefAt b t (ptr + i * t.objectRefSize) = .ok off →
      ∀ s, P s → Ends (create off s) (fun _ s' => P s' ∧ A off) F)
    (keys : ℕ) (list : List Plist) (hs : P s) : Ends (readRefs b t create cnt keys ptr list s)
      (fun _ s' => P s' ∧ ∀ i < cnt, ∀ off,
        getOffsetOfRefAt b t (ptr + i * t.objectRefSize) = .ok off → A off) F := by
  induction cnt generalizing ptr keys list s with
  | zero => exact ⟨hs, fun i hi => absurd hi (Nat.not_lt_zero i)⟩
  | succ cnt ih =>
    have hshift (i : ℕ) : ptr + t.objectRefSize + i * t.objectRefSize =
        ptr + (i + 1) * t.objectRefSize := by
      rw [Nat.succ_mul]
      omega
    have hoff := refAt_ensures ht ptr
    rw [readRefs]
    cases hget : getOffsetOfRefAt b t ptr with
    | ok off =>
      have hfirst := hcreate 0 (Nat.succ_pos cnt) off (by rwa [zero_mul, add_zero]) s hs
      dsimp only
      generalize create off s = r at hfirst
      obtain ⟨o, s'⟩ := r
      cases o with
      | ok pl =>
        dsimp only
        split_ifs
        · exact hfail s' hfirst.1
        · refine (ih (fun i hi off' hoff' => ?_) (keys - 1) (list ++ [pl]) hfirst.1).mono
            (fun list' s'' h => ⟨h.1, fun i hi off' hoff' => ?_⟩) fun _ h => h
          · rw [hshift] at hoff'
            exact hcreate (i + 1) (by omega) off' hoff'
          · cases i with
            | zero =>
              rw [zero_mul, add_zero, hget, Outcome.ok.injEq] at hoff'
              exact hoff' ▸ hfirst.2
            | succ i => exact h.2 i (by omega) off' (by rwa [hshift])
      | failed => exact hfirst
      | fault => exact hfirst
      | exhausted => exact hfirst
    | failed => exact hfail s hs
    | fault => exact (hget ▸ hoff : Outcome.Ensures .fault _)
    | exhausted => exact (hget ▸ hoff : Outcome.Ensures .exhausted _)

/-! ### The state along the path -/

def Inherited (b : Buffer) (t : Trailer) (G : ℕ → Prop) : Prop :=
  ∀ off, (∀ off', Refers b t off off' → G off') → G off

theorem inherited_finite : Inherited b t (Finite b t) := fun off h => Acc.intro off h

theorem inherited_true : Inherited b t fun _ => True := fun _ _ => trivial

def Sound (G : ℕ → Prop) (s : ReadState) : Prop :=
  ∀ off plist, s.cached off = some plist → G off

variable {G : ℕ → Prop}

theorem sound_of_objects_eq {s' : ReadState} (h : s'.objects = s.objects) (hs : Sound G s) :
    Sound G s' := by
  intro off plist hoff
  rw [cached, h] at hoff
  exact hs off plist hoff

theorem sound_keep (hs : Sound G s) (hoff : G off) (keeps : Bool)
    (plist : Plist) : Sound G (s.keep keeps off plist) := by
  cases keeps with
  | false => exact hs
  | true =>
    intro off' plist' hcached
    cases hobjects : s.objects with
    | none => simp [ReadState.keep, cached, hobjects] at hcached
    | some objects =>
      simp only [ReadState.keep, cached, hobjects, if_true, Option.map_some,
        Option.bind_some, lookup_cons] at hcached
      split at hcached
      · next heq => exact (beq_iff_eq.mp heq) ▸ hoff
      · exact hs off' plist' (by simpa [cached, hobjects] using hcached)

def OnTrack (C : Finset ℕ) (frames curDepth : ℕ) (s : ReadState) : Prop :=
  17 + C.card ≤ frames + curDepth ∧
    match s.set with
    | none => curDepth ≤ 16
    | some path => curDepth = 16 + path.length ∧ path.Nodup ∧ ∀ off ∈ path, off ∈ C

variable {C : Finset ℕ} {frames curDepth : ℕ}

theorem OnTrack.frames_pos (h : OnTrack C frames curDepth s) : 0 < frames := by
  obtain ⟨hframes, hpath⟩ := h
  cases hset : s.set with
  | none =>
    rw [hset] at hpath
    omega
  | some path =>
    rw [hset] at hpath
    obtain ⟨hdepth, hnodup, hmem⟩ := hpath
    have hcard : path.length ≤ C.card := by
      rw [← toFinset_card_of_nodup hnodup]
      exact Finset.card_le_card fun off hoff => hmem off (mem_toFinset.mp hoff)
    omega

theorem OnTrack.enter
    (h : OnTrack C (frames + 1) curDepth s) (hoff : off ∈ C) (hpath : s.onPath off = false) :
    OnTrack C frames (curDepth + 1) (s.enter off curDepth) := by
  obtain ⟨hframes, htrack⟩ := h
  refine ⟨by omega, ?_⟩
  unfold ReadState.enter
  cases hset : s.set with
  | none =>
    rw [hset] at htrack
    split_ifs with hdeep
    · refine ⟨?_, nodup_singleton off, fun x hx => (mem_singleton.mp hx) ▸ hoff⟩
      rw [length_singleton]
      omega
    · rw [hset]
      omega
  | some path =>
    rw [hset] at htrack
    obtain ⟨hdepth, hnodup, hmem⟩ := htrack
    have hnot : off ∉ path := by simpa [onPath, hset] using hpath
    simp only [if_neg hnot]
    refine ⟨?_, nodup_cons.mpr ⟨hnot, hnodup⟩, fun x hx => ?_⟩
    · rw [length_cons]
      omega
    · rcases mem_cons.mp hx with rfl | hx
      · exact hoff
      · exact hmem x hx

/-! ### The recursion -/

theorem Inherited.of_not_container (hG : Inherited b t G)
    (hmarker : b.deref (b.ptr off) = .ok marker)
    (h : (Kind.of marker).isContainer = false) : G off := by
  refine hG off fun off' href => ?_
  obtain ⟨-, marker', ptr, cnt, hmarker', hcontainer, -⟩ := href
  rw [hmarker, Outcome.ok.injEq] at hmarker'
  rw [hmarker', hcontainer] at h
  exact absurd h (by decide)

theorem Inherited.of_refs (hG : Inherited b t G) {ptr cnt : ℕ}
    (hmarker : b.deref (b.ptr off) = .ok marker)
    (hread : readContainer b t marker (b.ptr off) = .ok (ptr, cnt))
    (hrefs : ∀ i < cnt, ∀ off', getOffsetOfRefAt b t (ptr + i * t.objectRefSize) = .ok off' →
      G off') :
    G off := by
  refine hG off fun off' href => ?_
  obtain ⟨-, marker', ptr', cnt', hmarker', -, hread', i, hi, hget⟩ := href
  rw [hmarker, Outcome.ok.injEq] at hmarker'
  rw [← hmarker', hread, Outcome.ok.injEq, Prod.mk.injEq] at hread'
  obtain ⟨rfl, rfl⟩ := hread'
  exact hrefs i hi off' hget

section

variable (ht : Accepted b t) (hG : Inherited b t G)
  (hC : ∀ off, ReflTransGen (Refers b t) start off → IsContainer b t off → off ∈ C)
include ht hG hC

/-- With a frame for each of the first seventeen calls and for each container
that can be reached, a call ends, leaves the path as it was, and succeeds
only if the offset has the property. -/
theorem createObject2_ends (hoff : ReflTransGen (Refers b t) start off)
    (htrack : OnTrack C frames curDepth s) (hsound : Sound G s) :
    Ends (createObject2 b t option frames curDepth off s)
      (fun _ s' => s'.set = s.set ∧ Sound G s' ∧ G off) (Sound G) := by
  induction frames generalizing curDepth off s with
  | zero => exact absurd htrack.frames_pos (lt_irrefl 0)
  | succ frames ih =>
    rw [createObject2]
    cases hcached : s.cached off with
    | some plist => exact ⟨rfl, hsound, hsound off plist hcached⟩
    | none =>
    by_cases hpath : s.onPath off = true
    · rw [if_pos hpath]
      exact hsound
    rw [if_neg hpath]
    by_cases hrange : off < 8 ∨ t.offsetTableOffset - 1 < off
    · rw [if_pos hrange]
      exact hsound
    rw [if_neg hrange]
    have hlen := ht.length
    have hlast := lastPtr_eq ht
    have hptr : b.ptr off = b.base + off := Buffer.ptr_eq (by omega)
    have hmarker : b.deref (b.ptr off) = .ok _ := hptr ▸ Buffer.deref_eq (by omega)
    generalize b.bytes[off] = marker at hmarker
    rw [hmarker]
    dsimp only
    cases hcontainer : (Kind.of marker).isContainer with
    | false =>
      have hleaf := readLeaf_ensures ht marker (show b.base ≤ b.ptr off by omega) (by omega)
      have hfin := hG.of_not_container hmarker hcontainer
      cases hread : readLeaf b t marker (b.ptr off) with
      | ok plist => exact ⟨set_keep _ _ _ _, sound_keep hsound hfin _ _, hfin⟩
      | failed => exact hsound
      | fault => exact (hread ▸ hleaf : Outcome.Ensures .fault _)
      | exhausted => exact (hread ▸ hleaf : Outcome.Ensures .exhausted _)
    | true =>
      have hhead := readContainer_ensures ht marker (show b.base ≤ b.ptr off by omega) (by omega)
      cases hread : readContainer b t marker (b.ptr off) with
      | ok r =>
        obtain ⟨ptr, cnt⟩ := r
        have hmem : off ∈ C := hC off hoff ⟨hrange, marker, hmarker, hcontainer⟩
        have htrack' := htrack.enter hmem (Bool.eq_false_iff.mpr hpath)
        -- Between the calls the path is that of this call.
        let P (s' : ReadState) := s'.set = (s.enter off curDepth).set ∧ Sound G s'
        have hcall (i : ℕ) (hi : i < cnt) (off' : ℕ)
            (hget : getOffsetOfRefAt b t (ptr + i * t.objectRefSize) = .ok off')
            (s' : ReadState) (hP : P s') :
            Ends (createObject2 b t option frames (curDepth + 1) off' s')
              (fun _ s'' => P s'' ∧ G off') (Sound G) := by
          have href : Refers b t off off' :=
            ⟨hrange, marker, ptr, cnt, hmarker, hcontainer, hread, i, hi, hget⟩
          have htrack'' : OnTrack C frames (curDepth + 1) s' := by
            unfold OnTrack
            rw [hP.1]
            exact htrack'
          exact (ih (hoff.tail href) htrack'' hP.2).mono
            (fun _ s'' h => ⟨⟨h.1.trans hP.1, h.2.1⟩, h.2.2⟩) fun _ h => h
        have hloop := readRefs_ends ht (fun s' (h : P s') => h.2) hcall
          (if Kind.of marker = .dict then cnt / 2 else 0) []
          ⟨rfl, sound_of_objects_eq (s.objects_enter off curDepth) hsound⟩
        dsimp only
        generalize readRefs b t _ cnt _ ptr [] _ = r at hloop
        obtain ⟨o, s'⟩ := r
        cases o with
        | ok list =>
          obtain ⟨⟨hset, hsound'⟩, hrefs⟩ := hloop
          have hfin := hG.of_refs hmarker hread hrefs
          refine ⟨?_, ?_, hfin⟩
          · rw [set_keep, set_leave (Bool.eq_false_iff.mpr hpath) hset]
          · exact sound_keep (sound_of_objects_eq (objects_leave _ _ _) hsound') hfin _ _
        | failed => exact hloop
        | fault => exact hloop
        | exhausted => exact hloop
      | failed => exact hsound
      | fault => exact (hread ▸ hhead : Outcome.Ensures .fault _)
      | exhausted => exact (hread ▸ hhead : Outcome.Ensures .exhausted _)

theorem object2_top_ends (hframes : 17 + C.card ≤ frames) {objects : Option (List (ℕ × Plist))}
    (hsound : Sound G ⟨objects, none⟩) :
    Ends (createObject2 b t option frames 0 start ⟨objects, none⟩)
      (fun _ s' => Sound G s' ∧ G start) (Sound G) := by
  have htrack : OnTrack C frames 0 ⟨objects, none⟩ := ⟨by omega, Nat.zero_le 16⟩
  exact (createObject2_ends ht hG hC .refl htrack hsound).mono (fun _ _ h => h.2) fun _ h => h

end

theorem sound_empty : Sound G ⟨some [], none⟩ :=
  fun _ _ h => absurd h (by simp [cached])

/-- For a buffer that is accepted, a call with 17 frames and one for each
container that can be reached ends with a property list or with `false`,
keeps the cache sound, and ends with `false` if there is a cycle. -/
theorem createObject2_terminates {top : ℕ}
    (htop : getTopLevelInfo b = .ok (marker, top, t)) (option : Mutability) (start : ℕ)
    (C : Finset ℕ) (hC : ∀ off, ReflTransGen (Refers b t) start off → IsContainer b t off → off ∈ C)
    (frames : ℕ) (hframes : 17 + C.card ≤ frames) (objects : Option (List (ℕ × Plist)))
    (hsound : Sound (Finite b t) ⟨objects, none⟩) :
    ((∃ plist, (createObject2 b t option frames 0 start ⟨objects, none⟩).1 = .ok plist) ∨
        (createObject2 b t option frames 0 start ⟨objects, none⟩).1 = .failed) ∧
      Sound (Finite b t) (createObject2 b t option frames 0 start ⟨objects, none⟩).2 ∧
      ((∃ off, ReflTransGen (Refers b t) start off ∧ TransGen (Refers b t) off off) →
        (createObject2 b t option frames 0 start ⟨objects, none⟩).1 = .failed) := by
  have hends : Ends (createObject2 b t option frames 0 start ⟨objects, none⟩) _ _ :=
    object2_top_ends (accepted_of_info htop) inherited_finite hC hframes hsound
  generalize createObject2 b t option frames 0 start ⟨objects, none⟩ = r at hends
  obtain ⟨o, s⟩ := r
  cases o with
  | ok plist =>
    refine ⟨.inl ⟨plist, rfl⟩, hends.1, ?_⟩
    rintro ⟨off, hreach, hcycle⟩
    exact absurd hends.2 (not_finite_of_cycle hreach hcycle)
  | failed => exact ⟨.inr rfl, hends, fun _ => rfl⟩
  | fault => exact hends.elim
  | exhausted => exact hends.elim

def selfArray : Buffer where
  base := 4096
  bytes := magic00 ++ [0xA1, 0x00] ++ [0x08] ++
    [0, 0, 0, 0, 0, 0, 1, 1, 0, 0, 0, 0, 0, 0, 0, 1, 0, 0, 0, 0, 0, 0, 0, 0,
      0, 0, 0, 0, 0, 0, 0, 10]
  low := low_page
  fits := by decide

/-- The array that contains itself is refused. -/
theorem createObject2_selfArray :
    (createObject2 selfArray ⟨1, 1, 1, 0, 10⟩ .immutable 27 0 8 ⟨some [], none⟩).1 = .failed := by
  have htop : getTopLevelInfo selfArray = .ok (0xA1, 8, ⟨1, 1, 1, 0, 10⟩) := by decide +kernel
  have href : Refers selfArray ⟨1, 1, 1, 0, 10⟩ 8 8 :=
    ⟨by decide, 0xA1, 4096 + 9, 1, by decide +kernel, by decide +kernel, by decide +kernel, 0,
      by decide, by decide +kernel⟩
  refine (createObject2_terminates htop .immutable 8 (Finset.range 10) (fun off _ hoff => ?_) 27
    (by decide) (some []) sound_empty).2.2 ⟨8, .refl, .single href⟩
  have hrange : ¬(off < 8 ∨ 10 - 1 < off) := hoff.1
  exact Finset.mem_range.mpr (by omega)

end Hexley.Cf.BinaryPlist
