import Hexley.Dns.NameEquality
import Hexley.Dns.PutRecord

/-!
Messages that are built from several questions and records, and sent.

A name that was compressed can be read back only as long as the bytes that were
compared for it stay as they are. Three kinds of bytes in the range of the
search do not: the four counts of the header, which every call increments and
which are put into network order in the end, the length of the rdata of the
record that is just being written, and the first byte behind the message, which
is compared with the root at the end of a match.

`Stands` says of a name that it does not depend on any of these. A call of one
of the functions leaves the names that stand before it (`Stands.mono`) and adds
names that stand (`Wrote.stands`), if it is safe, and so does the message that
is sent in the end.
-/

namespace Hexley.Dns

open Lib List Mem Endian

/-! ### Names that stand -/

def messageEnd : ℕ := sizeofDNSMessageHeader + absoluteMaxDNSMessageData

/-- The name is in the message that ends at `stop`, and nothing that is written later to the
counts or behind `stop` matters to it. -/
structure NameEntry.Stands (e : NameEntry) (m : Mem) (stop : ℕ) : Prop where
  written : ∃ bs, NameWritten e.buffer e.pos e.name.labels bs e.compared ∧ m.Holds e.pos bs ∧
    e.pos + bs.length ≤ stop
  header : sizeofDNSMessageHeader ≤ e.pos
  clean : ∀ x ∈ e.compared, x < e.pos ∧ x ∉ headerCounts
  same : Set.EqOn e.buffer m e.compared

variable {m m' : Mem} {stop stop' : ℕ} {es : List NameEntry} {pf : Platform} {st st' : Mem × ℕ}

section Stands

variable {e : NameEntry} {ptr : ℕ} {segs : List Seg} {bs : List UInt8} {F : Set ℕ}

theorem NameEntry.Stands.mono (h : e.Stands m stop)
    (heq : Set.EqOn m m' {x | x < stop ∧ x ∉ headerCounts}) (hstop : stop ≤ stop') :
    e.Stands m' stop' := by
  obtain ⟨bs, hw, hbs, hend⟩ := h.written
  refine ⟨⟨bs, hw, hbs.congr (heq.mono fun x hx => ?_), hend.trans hstop⟩, h.header, h.clean,
    h.same.trans (heq.mono fun x hx => ?_)⟩
  · exact ⟨hx.2.trans_le hend, not_mem_headerCounts (h.header.trans hx.1)⟩
  · obtain ⟨hlt, hc⟩ := h.clean x hx
    exact ⟨hlt.trans_le ((Nat.le_add_right _ _).trans hend), hc⟩

theorem NameEntry.Stands.decodes (h : e.Stands m stop) (hstop : stop ≤ messageEnd) (dst : Mem)
    (base : ℕ) :
    ∃ p, (getDomainName e.pos stop dst base).run m = (some p, dst.write base e.name.bytes) := by
  obtain ⟨bs, hw, hbs, hend⟩ := h.written
  have hmax : messageEnd ≤ 0x4000 := by decide
  exact ⟨_, name_of_nameRead
    (hw.nameRead (fun x hx => (h.clean x hx).1) hbs h.same hend (by omega))⟩

theorem Written.stands (h : Written m ptr segs bs es) (hclean : SegsClean F m ptr segs)
    (hF : headerCounts ⊆ F) (hptr : sizeofDNSMessageHeader ≤ ptr) (hbs : m'.Holds ptr bs)
    (heq : Set.EqOn m m' {x | x < ptr ∧ x ∉ F}) (hstop : ptr + bs.length ≤ stop) :
    ∀ e ∈ es, e.Stands m' stop := by
  induction h with
  | nil => exact nofun
  | @bytes m ptr bs cs segs es rest ih =>
    obtain ⟨hbs, hcs⟩ := holds_append.mp hbs
    rw [length_append, ← add_assoc] at hstop
    exact ih hclean (hptr.trans (Nat.le_add_right _ _)) hcs (eqOn_of_write heq hbs) hstop
  | @name m ptr d bs cs segs s es hd rest ih =>
    obtain ⟨hbs, hcs⟩ := holds_append.mp hbs
    obtain ⟨hs, hclean⟩ := hclean bs s hd
    rw [length_append, ← add_assoc] at hstop
    refine List.forall_mem_cons.mpr ⟨⟨⟨bs, hd, hbs, (Nat.le_add_right _ _).trans hstop⟩, hptr,
      fun x hx => ⟨(hs x hx).1, fun hc => (hs x hx).2 (hF hc)⟩, heq.mono hs⟩, ?_⟩
    exact ih hclean (hptr.trans (Nat.le_add_right _ _)) hcs (eqOn_of_write heq hbs) hstop

end Stands

/-! ### Calls -/

structure ValidRecord (pf : Platform) where
  rr : ResourceRecord
  name : DomainName
  segs : List Seg
  nameAt : NameAt rr.name 0 name
  form : WireForm pf rr (layoutOf rr.rrtype) segs

inductive Call (pf : Platform)
  | question (nm : Mem) (d : DomainName) (hd : NameAt nm 0 d) (rrtype rrclass : UInt16) (limit : ℕ)
      (hlimit : limit ≤ messageEnd)
  | record (r : ValidRecord pf) (count : Option Section) (ttl : UInt32) (limit : ℕ)
      (hlimit : limit ≤ messageEnd)

section Calls

def Call.put (m : Mem) (stop : ℕ) : Call pf → Option ℕ × Mem
  | .question nm _ _ rrtype rrclass limit _ => putQuestion pf m stop limit nm rrtype rrclass
  | .record r count ttl limit _ => putResourceRecordTTLWithLimit pf m stop count r.rr ttl limit

/-- The message and its end after the call. If the function returns a null pointer, the
caller goes on at the old end. -/
def Call.run (st : Mem × ℕ) (c : Call pf) : Mem × ℕ :=
  match c.put st.1 st.2 with
  | (some stop, m) => (m, stop)
  | (none, m) => (m, st.2)

def build (calls : List (Call pf)) (st : Mem × ℕ) : Mem × ℕ := calls.foldl Call.run st

def questionTail (rrtype rrclass : UInt16) : List UInt8 :=
  big.bytes 2 rrtype.toNat ++ big.bytes 2 rrclass.toNat

/-- The call has led from a message to a message, and `es` are the names that it put. -/
inductive Wrote : Mem × ℕ → Call pf → Mem × ℕ → List NameEntry → Prop
  | question {m : Mem} {stop : ℕ} {nm : Mem} {d : DomainName} {hd : NameAt nm 0 d}
      {rrtype rrclass : UInt16} {limit : ℕ} {hlimit : limit ≤ messageEnd} {bs : List UInt8}
      {s : Set ℕ} (hw : NameWritten m stop d.labels bs s) (hle : stop + bs.length + 4 ≤ limit) :
      Wrote (m, stop) (.question nm d hd rrtype rrclass limit hlimit)
        (incrementCount pf (m.write stop (bs ++ questionTail rrtype rrclass)) .questions,
          stop + bs.length + 4)
        [⟨stop, d, m, s⟩]
  | unregistered {m : Mem} {stop : ℕ} {r : ValidRecord pf} {count : Option Section}
      {ttl : UInt32} {limit : ℕ} {hlimit : limit ≤ messageEnd}
      (hr : r.rr.recordType = kDNSRecordTypeUnregistered) :
      Wrote (m, stop) (.record r count ttl limit hlimit) (m, stop) []
  | record {m : Mem} {stop : ℕ} {r : ValidRecord pf} {count : Option Section}
      {ttl : UInt32} {limit : ℕ} {hlimit : limit ≤ messageEnd} {bs cs : List UInt8}
      {es : List NameEntry} (hr : r.rr.recordType ≠ kDNSRecordTypeUnregistered)
      (hw : RecordWritten m stop r.rr ttl r.name r.segs bs cs es)
      (hle : stop + bs.length + 10 + cs.length ≤ limit) :
      Wrote (m, stop) (.record r count ttl limit hlimit)
        (bumpCount pf count (m.write stop (recordBytes r.rr ttl bs cs)),
          stop + bs.length + 10 + cs.length) es

/-- No byte that changes later can be compared for a name of the call, and no name of its
rdata can be cut. -/
def Call.Safe (m : Mem) (stop : ℕ) : Call pf → Prop
  | .question _ d _ _ _ _ _ => ∀ bs s, NameWritten m stop d.labels bs s →
      ∀ x ∈ s, x < stop ∧ x ∉ headerCounts
  | .record r _ ttl limit _ => RecordClean m stop r.rr ttl r.name r.segs ∧
      RecordUncut limit m stop r.rr ttl r.name r.segs

variable {c : Call pf}

theorem putQuestion_outcome {nm : Mem} {d : DomainName} {limit : ℕ} {x : Option ℕ × Mem}
    (rrtype rrclass : UInt16) (hd : NameAt nm 0 d)
    (hx : putQuestion pf m stop limit nm rrtype rrclass = x) :
    (∃ bs s, NameWritten m stop d.labels bs s ∧ stop + bs.length + 4 ≤ limit ∧
        x = (some (stop + bs.length + 4),
          incrementCount pf (m.write stop (bs ++ questionTail rrtype rrclass)) .questions)) ∨
      (x.1 = none ∧ Set.EqOn m x.2 (Set.Iio stop)) := by
  have hput : NameOutcome true limit m stop d _ := putLabels_outcome true hd
  rw [putQuestion] at hx
  generalize putDomainNameAsLabels true m stop limit nm 0 = y at hput hx
  subst hx
  cases hput with
  | failed heq hroom => exact .inr ⟨rfl, heq⟩
  | cut hls hne hend =>
    dsimp only
    rw [if_pos (by omega)]
    exact .inr ⟨rfl, eqOn_below⟩
  | @written bs s hw hle hc =>
    dsimp only
    split
    · exact .inr ⟨rfl, eqOn_below⟩
    · refine .inl ⟨bs, s, hw, by omega, ?_⟩
      rw [write_append m stop bs]
      rfl

theorem Call.Safe.outcome (hsafe : c.Safe m stop) :
    (∃ st' es, c.put m stop = (some st'.2, st'.1) ∧ Wrote (m, stop) c st' es) ∨
      ((c.put m stop).1 = none ∧ Set.EqOn m (c.put m stop).2 (Set.Iio stop)) := by
  cases c with
  | question nm d hd rrtype rrclass limit hlimit =>
    rcases putQuestion_outcome rrtype rrclass hd
      (rfl : putQuestion pf m stop limit nm rrtype rrclass = _) with ⟨bs, s, hw, hle, hx⟩ | hfail
    · exact .inl ⟨(_, _), _, hx, .question hw hle⟩
    · exact .inr hfail
  | record r count ttl limit hlimit =>
    by_cases hr : r.rr.recordType = kDNSRecordTypeUnregistered
    · refine .inl ⟨(m, stop), [], ?_, .unregistered hr⟩
      rw [Call.put, putResourceRecordTTLWithLimit, if_pos hr]
    · rcases putRecord_outcome count ttl hr r.nameAt r.form hsafe.2 rfl rfl rfl with
        ⟨⟨es, hw⟩, hle, -, hx⟩ | ⟨hnone, heq, -⟩
      · exact .inl ⟨(_, _), es, hx, .record hr hw hle⟩
      · exact .inr ⟨hnone, heq⟩

theorem Wrote.frame (h : Wrote st c st' es) :
    Set.EqOn st.1 st'.1 {x | x < st.2 ∧ x ∉ headerCounts} ∧ st.2 ≤ st'.2 ∧
      (st.2 ≤ messageEnd → st'.2 ≤ messageEnd) := by
  have hbelow (m : Mem) (stop : ℕ) (bs : List UInt8) (count : Option Section) :
      Set.EqOn m (bumpCount pf count (m.write stop bs)) {x | x < stop ∧ x ∉ headerCounts} :=
    fun x hx => (eqOn_below hx.1).trans (bumpCount_eqOn count hx.2)
  cases h with
  | @question _ _ _ _ _ _ _ _ hlimit _ _ hw hle =>
    exact ⟨hbelow _ _ _ (some .questions), by dsimp only; omega, fun _ => hle.trans hlimit⟩
  | unregistered hr => exact ⟨fun _ _ => rfl, le_rfl, id⟩
  | @record _ _ _ _ _ _ hlimit _ _ _ hr hw hle =>
    exact ⟨hbelow _ _ _ _, by dsimp only; omega, fun _ => hle.trans hlimit⟩

theorem Wrote.stands (h : Wrote st c st' es) (hsafe : c.Safe st.1 st.2)
    (hstop : sizeofDNSMessageHeader ≤ st.2) : ∀ e ∈ es, e.Stands st'.1 st'.2 := by
  have hkept (m : Mem) {stop : ℕ} (hstop : sizeofDNSMessageHeader ≤ stop) (bs : List UInt8)
      (count : Option Section) : (bumpCount pf count (m.write stop bs)).Holds stop bs :=
    (m.holds_write stop bs).congr fun x hx =>
      bumpCount_eqOn count (not_mem_headerCounts (hstop.trans hx.1))
  have hframe := h.frame.1
  cases h with
  | @question m stop _ d _ rrtype rrclass _ _ bs s hw hle =>
    have hbs := (holds_append.mp
      (hkept m hstop (bs ++ questionTail rrtype rrclass) (some .questions))).1
    exact List.forall_mem_singleton.mpr ⟨⟨bs, hw, hbs, Nat.le_add_right _ 4⟩, hstop,
      hsafe bs s hw, hframe.mono (hsafe bs s hw)⟩
  | unregistered hr => exact nofun
  | @record m stop r count ttl limit hlimit bs cs es hr hw hle =>
    obtain ⟨s, es', hname, hdata, rfl⟩ := hw
    obtain ⟨hs, hsegs⟩ := hsafe.1 bs s hname
    obtain ⟨hbs, hcs, heq⟩ := holds_of_recordBytes (hkept m hstop _ count) hframe
    refine List.forall_mem_cons.mpr ⟨⟨⟨bs, hname, hbs, ?_⟩, hstop, hs, hframe.mono hs⟩,
      hdata.stands hsegs Set.subset_union_left (by omega) hcs heq le_rfl⟩
    dsimp only
    omega

end Calls

/-! ### Runs -/

section Runs

variable {c : Call pf}

/-- The calls have led from a message to a message, and `es` are the names that the calls put
that did not fail. -/
inductive Builds : List (Call pf) → Mem × ℕ → Mem × ℕ → List NameEntry → Prop
  | nil {st : Mem × ℕ} : Builds [] st st []
  | wrote {c : Call pf} {calls : List (Call pf)} {st st' st'' : Mem × ℕ} {es es' : List NameEntry}
      (hput : c.put st.1 st.2 = (some st'.2, st'.1)) (hw : Wrote st c st' es)
      (rest : Builds calls st' st'' es') : Builds (c :: calls) st st'' (es ++ es')
  | failed {c : Call pf} {calls : List (Call pf)} {st st' : Mem × ℕ} {m : Mem}
      {es : List NameEntry} (hput : c.put st.1 st.2 = (none, m))
      (rest : Builds calls (m, st.2) st' es) : Builds (c :: calls) st st' es

def RunSafe : List (Call pf) → Mem × ℕ → Prop
  | [], _ => True
  | c :: calls, st => c.Safe st.1 st.2 ∧ RunSafe calls (c.run st)

variable {calls : List (Call pf)}

theorem Call.run_of_some (h : c.put st.1 st.2 = (some st'.2, st'.1)) : c.run st = st' := by
  rw [Call.run, h]

theorem Call.run_of_none (h : c.put st.1 st.2 = (none, m)) : c.run st = (m, st.2) := by
  rw [Call.run, h]

theorem exists_builds (hsafe : RunSafe calls st) : ∃ es, Builds calls st (build calls st) es := by
  induction calls generalizing st with
  | nil => exact ⟨[], .nil⟩
  | cons c calls ih =>
    obtain ⟨hc, hrest⟩ := hsafe
    obtain ⟨es', hes'⟩ := ih hrest
    rw [build, foldl_cons, ← build]
    rcases hc.outcome with ⟨st', es, hput, hw⟩ | ⟨hnone, heq⟩
    · rw [Call.run_of_some hput] at hes' ⊢
      exact ⟨es ++ es', .wrote hput hw hes'⟩
    · have hput : c.put st.1 st.2 = (none, (c.put st.1 st.2).2) := Prod.ext hnone rfl
      rw [Call.run_of_none hput] at hes' ⊢
      exact ⟨es', .failed hput hes'⟩

structure Extends (st st' : Mem × ℕ) (es : List NameEntry) : Prop where
  frame : Set.EqOn st.1 st'.1 {x | x < st.2 ∧ x ∉ headerCounts}
  le : st.2 ≤ st'.2
  bounded : st.2 ≤ messageEnd → st'.2 ≤ messageEnd
  stands : ∀ e ∈ es, e.Stands st'.1 st'.2

theorem Extends.refl (st : Mem × ℕ) : Extends st st [] := ⟨fun _ _ => rfl, le_rfl, id, nofun⟩

theorem Extends.trans {st'' : Mem × ℕ} {es' : List NameEntry} (h : Extends st st' es)
    (h' : Extends st' st'' es') : Extends st st'' (es ++ es') where
  frame x hx := (h.frame hx).trans (h'.frame ⟨hx.1.trans_le h.le, hx.2⟩)
  le := h.le.trans h'.le
  bounded := h'.bounded ∘ h.bounded
  stands e he := by
    rcases List.mem_append.mp he with he | he
    · exact (h.stands e he).mono h'.frame h'.le
    · exact h'.stands e he

theorem extends_of_counts
    (heq : Set.EqOn m m' {x | x ∉ headerCounts}) : Extends (m, stop) (m', stop) [] :=
  ⟨heq.mono fun _ hx => hx.2, le_rfl, id, nofun⟩

theorem Builds.extends (h : Builds calls st st' es) (hsafe : RunSafe calls st)
    (hstop : sizeofDNSMessageHeader ≤ st.2) : Extends st st' es := by
  induction h with
  | nil => exact .refl _
  | @wrote c calls st st' st'' es es' hput hw rest ih =>
    obtain ⟨hc, hrest⟩ := hsafe
    rw [Call.run_of_some hput] at hrest
    obtain ⟨hframe, hle, hbound⟩ := hw.frame
    have hstep : Extends st st' es := ⟨hframe, hle, hbound, hw.stands hc hstop⟩
    exact hstep.trans (ih hrest (hstop.trans hle))
  | @failed c calls st st' m es hput rest ih =>
    obtain ⟨hc, hrest⟩ := hsafe
    rw [Call.run_of_none hput] at hrest
    have heq : Set.EqOn st.1 m (Set.Iio st.2) := by
      rcases hc.outcome with ⟨st₁, es₁, hsome, -⟩ | ⟨-, heq⟩
      · rw [hput] at hsome
        cases hsome
      · rwa [hput] at heq
    have hstep : Extends st (m, st.2) [] := ⟨heq.mono fun _ hx => hx.1, le_rfl, id, nofun⟩
    exact hstep.trans (ih hrest hstop)

theorem Builds.tail (h : Builds (c :: calls) st st' es) :
    ∃ es', Builds calls (c.run st) st' es' ∧ es' ⊆ es := by
  cases h with
  | wrote hput hw rest =>
    exact ⟨_, Call.run_of_some hput ▸ rest, subset_append_right _ _⟩
  | failed hput rest => exact ⟨_, Call.run_of_none hput ▸ rest, List.Subset.refl _⟩

theorem Builds.mem_of_question {nm : Mem} {d : DomainName} {hd : NameAt nm 0 d}
    {rrtype rrclass : UInt16} {limit : ℕ} {hlimit : limit ≤ messageEnd}
    (h : Builds (.question nm d hd rrtype rrclass limit hlimit :: calls) st st' es)
    (hput : (putQuestion pf st.1 st.2 limit nm rrtype rrclass).1 ≠ none) :
    ∃ e ∈ es, e.pos = st.2 ∧ e.name = d := by
  cases h with
  | wrote hsome hw rest =>
    cases hw with
    | question hw hle => exact ⟨_, mem_append_left _ mem_cons_self, rfl, rfl⟩
  | failed hnone rest => exact absurd (congrArg Prod.fst hnone) hput

end Runs

/-! ### Sending -/

section Send

structure ValidAuth (pf : Platform) where
  hinfo : Option (ValidRecord pf)
  tsig : Mem → ℕ → ValidRecord pf

def ValidAuth.toAuthInfo (auth : ValidAuth pf) : AuthInfo where
  hinfo := auth.hinfo.map ValidRecord.rr
  tsig m stop := (auth.tsig m stop).rr

theorem putLimit_le (m : Mem) : putLimit pf m ≤ messageEnd := by
  unfold putLimit messageEnd
  split <;> decide

variable (auth : Option (ValidAuth pf))

def hinfoCalls (m : Mem) : List (Call pf) :=
  match auth.bind ValidAuth.hinfo with
  | none => []
  | some r => [.record r (some .additionals) r.rr.rroriginalttl (putLimit pf m) (putLimit_le m)]

def tsigCalls (st : Mem × ℕ) : List (Call pf) :=
  match auth with
  | none => []
  | some auth => [.record (auth.tsig st.1 st.2) none 0 messageEnd le_rfl]

/-- The counts in network order. The first three are those of the message `m` before the
HINFO record was put. -/
def networkCounts (pf : Platform) (m m' : Mem) : Mem :=
  m'.write Section.questions.offset
    (big.bytes 2 (countOf pf m .questions) ++ big.bytes 2 (countOf pf m .answers) ++
      big.bytes 2 (countOf pf m .authorities) ++
      big.bytes 2 (countOf pf m' .additionals))

def beforeSigning (st : Mem × ℕ) : Mem × ℕ :=
  let st' := build (hinfoCalls auth st.1) st
  (networkCounts pf st.1 st'.1, st'.2)

def SendPuts (st : Mem × ℕ) (es : List NameEntry) : Prop :=
  ∃ es₁ es₂, Builds (hinfoCalls auth st.1) st (build (hinfoCalls auth st.1) st) es₁ ∧
    Builds (tsigCalls auth (beforeSigning auth st)) (beforeSigning auth st)
      (build (tsigCalls auth (beforeSigning auth st)) (beforeSigning auth st)) es₂ ∧
    es = es₁ ++ es₂

def SendSafe (st : Mem × ℕ) : Prop :=
  RunSafe (hinfoCalls auth st.1) st ∧
    RunSafe (tsigCalls auth (beforeSigning auth st)) (beforeSigning auth st)

variable {auth : Option (ValidAuth pf)} {sent : Mem × ℕ}

theorem build_hinfoCalls
    (h : putHINFO pf m stop ((auth.map ValidAuth.toAuthInfo).bind AuthInfo.hinfo) =
      (some stop', m')) :
    build (hinfoCalls auth m) (m, stop) = (m', stop') := by
  have hbind : (auth.map ValidAuth.toAuthInfo).bind AuthInfo.hinfo =
      (auth.bind ValidAuth.hinfo).map ValidRecord.rr := by
    cases auth <;> rfl
  rw [hbind] at h
  unfold hinfoCalls
  cases hr : auth.bind ValidAuth.hinfo with
  | none =>
    rw [hr] at h
    cases h
    rfl
  | some r =>
    rw [hr] at h
    exact Call.run_of_some h

theorem build_tsigCalls {a : ValidAuth pf}
    (h : signMessage pf m stop a.toAuthInfo.tsig = (some stop', m')) :
    (build (tsigCalls (some a) (m, stop)) (m, stop)).2 = stop' ∧
      Set.EqOn (build (tsigCalls (some a) (m, stop)) (m, stop)).1 m' {x | x ∉ headerCounts} := by
  rw [signMessage] at h
  split at h
  · cases h
  · rename_i stop₁ m₁ hput
    cases h
    have hrun : build (tsigCalls (some a) (m, stop)) (m, stop) = (m₁, stop') := by
      exact Call.run_of_some hput
    rw [hrun]
    refine ⟨rfl, (write_eqOn m₁ fun x hx => ?_).symm⟩
    have hx : ¬(4 ≤ x ∧ x < 12) := hx
    rw [length_bytes]
    simp only [Section.offset]
    omega

theorem send_eq_build
    (h : mDNSSendDNSMessage pf st.1 st.2 (auth.map ValidAuth.toAuthInfo) = some sent) :
    st.2 ≤ messageEnd ∧
      sent.2 = (build (tsigCalls auth (beforeSigning auth st)) (beforeSigning auth st)).2 ∧
      Set.EqOn (build (tsigCalls auth (beforeSigning auth st)) (beforeSigning auth st)).1 sent.1
        {x | x ∉ headerCounts} := by
  rw [mDNSSendDNSMessage] at h
  split at h
  · cases h
  have hmax : st.2 ≤ messageEnd := by
    unfold messageEnd
    omega
  split at h
  · cases h
  rename_i stop₁ m₁ hput
  have hhinfo : build (hinfoCalls auth st.1) st = (m₁, stop₁) := build_hinfoCalls hput
  have hbefore : beforeSigning auth st = (networkCounts pf st.1 m₁, stop₁) := by
    rw [beforeSigning, hhinfo]
  rw [hbefore]
  cases auth with
  | none =>
    cases h
    exact ⟨hmax, rfl, fun _ _ => by rfl⟩
  | some a =>
    dsimp only [Option.map_some] at h
    split at h
    · cases h
    rename_i stop₂ m₂ hsign
    cases h
    obtain ⟨hstop₂, heq⟩ := build_tsigCalls hsign
    exact ⟨hmax, hstop₂.symm, heq⟩

/-- In the message that is sent, the bytes that were compared for each name are what they
were, and the name is read back. The message is built in the buffer `m`. -/
def NamesFinal (calls : List (Call pf)) (auth : Option (ValidAuth pf)) (m : Mem) : Prop :=
  ∀ sent, mDNSSendDNSMessage pf (build calls (m, sizeofDNSMessageHeader)).1
      (build calls (m, sizeofDNSMessageHeader)).2 (auth.map ValidAuth.toAuthInfo) = some sent →
    ∃ es es', Builds calls (m, sizeofDNSMessageHeader)
        (build calls (m, sizeofDNSMessageHeader)) es ∧
      SendPuts auth (build calls (m, sizeofDNSMessageHeader)) es' ∧
      ∀ e ∈ es ++ es', Set.EqOn e.buffer sent.1 e.compared ∧ ∀ dst base,
        ∃ p, (getDomainName e.pos sent.2 dst base).run sent.1 =
          (some p, dst.write base e.name.bytes)

theorem exists_sendPuts (hsafe : SendSafe auth st) (hstop : sizeofDNSMessageHeader ≤ st.2)
    (hsent : mDNSSendDNSMessage pf st.1 st.2 (auth.map ValidAuth.toAuthInfo) = some sent) :
    ∃ es, SendPuts auth st es ∧ Extends st sent es ∧ sent.2 ≤ messageEnd := by
  obtain ⟨hmax, hend, heq⟩ := send_eq_build hsent
  obtain ⟨es₁, hes₁⟩ := exists_builds hsafe.1
  obtain ⟨es₂, hes₂⟩ := exists_builds hsafe.2
  have hext₁ := hes₁.extends hsafe.1 hstop
  have hcounts : Extends (build (hinfoCalls auth st.1) st) (beforeSigning auth st) [] := by
    refine extends_of_counts (write_eqOn _ fun x hx => ?_).symm
    have hx : ¬(4 ≤ x ∧ x < 12) := hx
    simp only [length_append, length_bytes, Section.offset]
    omega
  have hext₂ := hes₂.extends hsafe.2 (hstop.trans (hext₁.le.trans hcounts.le))
  have hlast : Extends (build (tsigCalls auth (beforeSigning auth st)) (beforeSigning auth st))
      sent [] := by
    obtain ⟨m', stop'⟩ := sent
    obtain rfl : stop' = _ := hend
    exact extends_of_counts heq
  have hall := ((hext₁.trans hcounts).trans hext₂).trans hlast
  rw [append_nil, append_nil] at hall
  exact ⟨es₁ ++ es₂, ⟨es₁, es₂, hes₁, hes₂, rfl⟩, hall, hall.bounded hmax⟩

/-- If every call is safe when it is made, the names in the message that is sent are final. -/
theorem namesFinal_of_safe {calls : List (Call pf)} {m : Mem}
    (hsafe : RunSafe calls (m, sizeofDNSMessageHeader))
    (hsend : SendSafe auth (build calls (m, sizeofDNSMessageHeader))) :
    NamesFinal calls auth m := by
  intro sent hsent
  obtain ⟨es, hes⟩ := exists_builds hsafe
  have hext := hes.extends hsafe le_rfl
  obtain ⟨es', hes', hext', hmax⟩ := exists_sendPuts hsend hext.le hsent
  refine ⟨es, es', hes, hes', fun e he => ?_⟩
  have hstands := (hext.trans hext').stands e he
  exact ⟨hstands.same, hstands.decodes hmax⟩

/-! ### A message whose names are final, and one whose names are not -/

theorem nameWritten_oneLabel {b : UInt8} {ptr : ℕ} {bs : List UInt8} {s : Set ℕ}
    (h : NameWritten m ptr [[b]] bs s) :
    s = ∅ ∨ ∃ r, r + 1 < ptr ∧ m.read r 3 = [1, b, 0] ∧ s = Set.Icc r (r + 2) := by
  cases h with
  | whole => exact .inl rfl
  | @pointer ls₁ ls₂ r _ hls hne hr hs =>
    obtain ⟨rfl, rfl⟩ : ls₁ = [] ∧ ls₂ = [[b]] := by
      cases ls₁ with
      | nil => exact ⟨rfl, hls.symm⟩
      | cons l ls₁ =>
        obtain ⟨-, hnil⟩ := List.cons.inj hls
        exact absurd (List.append_eq_nil_iff.mp hnil.symm).2 hne
    rw [show wire [] = [] from rfl, write_nil] at hs
    cases hs with
    | last hlt hl hz =>
      refine .inr ⟨r, hlt, ?_, rfl⟩
      have htwo : m.read r 2 = [1, b] := hl
      have hroot : m.read (r + 2) 1 = [0] := congrArg (fun x => [x]) hz
      rw [read_add m r 2 1, htwo, hroot]
      rfl

def addressQuestion (b : UInt8) : Call littlePlatform :=
  .question (ofList [1, b, 0]) (oneByteName b) rfl 1 1 messageEnd le_rfl

/-- The second of two questions for the name `a` is compressed to the first, which is final. -/
theorem twoQuestions_namesFinal :
    ((addressQuestion 97).put ((addressQuestion 97).run (ofList [], 12)).1 19).1 = some 25 ∧
    NamesFinal [addressQuestion 97, addressQuestion 97] none (ofList []) := by
  have hfirst : ∀ r < 11, (ofList []).read r 3 ≠ [1, 97, 0] := by decide +kernel
  have hstop : ((addressQuestion 97).run (ofList [], sizeofDNSMessageHeader)).2 = 19 := by
    decide +kernel
  have hsecond : ∀ r < 18,
    ((addressQuestion 97).run (ofList [], sizeofDNSMessageHeader)).1.read r 3 = [1, 97, 0] →
      r = 12 := by decide +kernel
  refine ⟨by decide +kernel, namesFinal_of_safe ⟨fun bs s h => ?_, fun bs s h => ?_, trivial⟩
    ⟨trivial, trivial⟩⟩
  · rcases nameWritten_oneLabel h with rfl | ⟨r, hr, hread, -⟩
    · exact nofun
    · exact absurd hread (hfirst r (Nat.lt_of_succ_lt_succ hr))
  · rcases nameWritten_oneLabel h with rfl | ⟨r, hr, hread, rfl⟩
    · exact nofun
    · obtain rfl := hsecond r (Nat.lt_of_succ_lt_succ hr) hread
      rintro x ⟨hx, hx'⟩
      exact ⟨by omega, not_mem_headerCounts hx⟩

/-- A question for the name whose one label is a zero byte is compressed to the counts of the
header, if there is one question already. When the message is sent, the counts have another
value and another byte order, and the name has become the root. -/
theorem zeroLabel_not_namesFinal :
    ¬NamesFinal [addressQuestion 97, addressQuestion 0] none (ofList []) := by
  intro h
  have hroot : (mDNSSendDNSMessage littlePlatform
      (build [addressQuestion 97, addressQuestion 0] (ofList [], sizeofDNSMessageHeader)).1
      (build [addressQuestion 97, addressQuestion 0] (ofList [], sizeofDNSMessageHeader)).2
      none).map (fun sent => ((getDomainName 19 sent.2 (ofList []) 0).run sent.1).2 0) =
        some 0 := by
    decide +kernel
  obtain ⟨sent, hsent, hbyte⟩ := Option.map_eq_some_iff.mp hroot
  obtain ⟨es, es', hes, -, hfinal⟩ := h sent hsent
  obtain ⟨es₁, hes₁, hsub⟩ := hes.tail
  obtain ⟨e, he, hpos, hname⟩ := hes₁.mem_of_question (by decide +kernel)
  have hstop : ((addressQuestion 97).run (ofList [], sizeofDNSMessageHeader)).2 = 19 := by
    decide +kernel
  obtain ⟨-, hdecodes⟩ := hfinal e (mem_append_left _ (hsub he))
  obtain ⟨p, hp⟩ := hdecodes (ofList []) 0
  rw [hpos, hstop, hname] at hp
  rw [hp] at hbyte
  have hlabel : (ofList []).write 0 [1, 0, 0] 0 = 1 := by decide
  exact absurd (hbyte.symm.trans hlabel) (by decide)

end Send

end Hexley.Dns
