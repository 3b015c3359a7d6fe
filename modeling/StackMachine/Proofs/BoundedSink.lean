import StackMachine.Proofs.Decimal
import StackMachine.Proofs.Delivery
import StackMachine.Proofs.Output

/-! Machines that print to sinks of any room, against the one whose sink has no limit. Until the
room is used up the two go the same way (`InStep.agrees`), and there the one with the limit stops,
in the middle of a line if need be (`InStep.overflows`). So what it prints is the beginning of what
is printed without a limit, and that tells all the cells that were printed
(`bounded_sink_agrees`). -/

namespace StackMachine

open StackMachine.Action

/-- A text that both writers were told and that both, being such sinks at first, have taken. -/
def Took {B U : Type} (vb : B → Sink) (vu : U → Sink) (s t : Sink) (b : B) (u : U) : Prop :=
  ∃ told, vb b = s.take told ∧ vu u = t.take told ∧ s.Fits told

section

variable {B U : Type} [Writer B] [Writer U] {vb : B → Sink} {vu : U → Sink} {s t : Sink}

theorem Took.print (hb : Writer.ActsAs vb) (hu : Writer.ActsAs vu) (hs : s.chunk ≠ some 0)
    (ht : t.chunk ≠ some 0) (hroom : t.room = none) (v : Cell) :
    Matches (Store.SinksWithin (Took vb vu s t))
      (fun c => c = .output (s.refusal.getD Sink.stalled)) (print v) (print v) := by
  rintro x y ⟨hstack, hvars, told, hxb, hyu, hf⟩
  rw [run_print, run_print]
  by_cases hfits : s.Fits (told ++ printed v)
  · obtain ⟨b, hwb, hb⟩ := hb.write_of_fits hs hxb hfits
    obtain ⟨u, hwu, hu⟩ := hu.write_of_fits ht hyu (Sink.fits_of_unlimited hroom _)
    rw [hwb, hwu]
    exact ⟨_, rfl, hstack, hvars, _, hb, hu, hfits⟩
  · obtain ⟨k, hk, hlt⟩ := Sink.not_fits_iff.1 hfits
    obtain ⟨b, hwb, -⟩ := hb.write_of_room_lt hs hxb hk (hf k hk) hlt
    rw [hwb]
    exact .inl rfl

end

namespace Machine

section

variable {U : Type} [Writer U] {vu : U → Sink} {t : Sink} {m : Machine U}

theorem sink_after (hu : Writer.ActsAs vu) (hc : (vu m.store.sink).chunk ≠ some 0)
    (hroom : (vu m.store.sink).room = none) (n : Nat) :
    vu (m.after n).store.sink = (vu m.store.sink).take ((m.printedIn n).flatMap printed) := by
  induction n with
  | zero => exact (Sink.take_nil _).symm
  | succ n ih =>
    rw [after, sink_next, printedIn_succ, List.flatMap_append]
    cases (m.after n).printing? with
    | none =>
      rw [Option.toList_none, List.flatMap_nil, List.append_nil]
      exact ih
    | some v =>
      obtain ⟨u, hw, hv⟩ := hu.write_of_fits hc ih (Sink.fits_of_unlimited hroom (_ ++ printed v))
      dsimp only
      rw [hw, hv, Option.toList_some, List.flatMap_singleton]

end

theorem printing?_withStore {B U : Type} (m : Machine B) {t : Store U}
    (h : t.stack = m.store.stack) : (m.withStore t).printing? = m.printing? := by
  unfold printing?
  rw [withStore, h]
  rfl

theorem inStep_start {B U : Type} (vb : B → Sink) (vu : U → Sink) (p : Program) (l : Limits) (b : B)
    (u : U) : InStep (Store.SinksWithin (Took vb vu (vb b) (vu u))) (start p l b) (start p l u) := by
  refine ⟨(start p l u).store, rfl, rfl, rfl, [], ?_, ?_, ?_⟩
  · exact (Sink.take_nil _).symm
  · exact (Sink.take_nil _).symm
  · exact fun k _ => k.zero_le

section

variable {B U : Type} [Writer B] [Writer U] {vb : B → Sink} {vu : U → Sink} {s t : Sink}
  {m : Machine B} {m' : Machine U} (hb : Writer.ActsAs vb) (hu : Writer.ActsAs vu) (hs : s.Fresh)
  (ht : t.Fresh) (hroom : t.room = none)

include hb hu hs ht

theorem output_of_took {told : List Char} (hm : vb m.store.sink = s.take told)
    (hm' : vu m'.store.sink = t.take told) :
    m.output = String.ofList told ∧ m'.output = String.ofList told := by
  unfold output
  rw [hb.accepted, hu.accepted, hm, hm', hs.accepted_take, ht.accepted_take]
  exact ⟨rfl, rfl⟩

theorem InStep.agrees (h : InStep (Store.SinksWithin (Took vb vu s t)) m m') :
    (m.status = m'.status ∧ m.pc = m'.pc ∧ m.steps = m'.steps ∧ m.stack = m'.stack ∧
      m.vars = m'.vars ∧ m.output = m'.output) ∧ s.Fits m'.output.toList := by
  obtain ⟨x, rfl, hstack, hvars, told, hbt, hut, hfits⟩ := h
  have hut' : vu (m.withStore x).store.sink = t.take told := hut
  obtain ⟨hm, hm'⟩ := output_of_took hb hu hs ht hbt hut'
  refine ⟨⟨rfl, rfl, rfl, congrArg Stack.toList hstack.symm, hvars.symm, hm.trans hm'.symm⟩, ?_⟩
  rw [hm', String.toList_ofList]
  exact hfits

include hroom

/-- Where a machine that was in step fails to print, its room is used up by the text that the other
one goes on to print, and it has taken so much of it as it had room for. -/
theorem InStep.overflows (h : InStep (Store.SinksWithin (Took vb vu s t)) m m')
    (hf : m.Fails (· = .output (s.refusal.getD Sink.stalled))) :
    ∃ k v, s.room = some k ∧ m'.printing? = some v ∧ m'.output.toList.length ≤ k ∧
      k < m'.next.output.toList.length ∧
      m.next.status = .faulted ⟨.output (s.refusal.getD Sink.stalled), m'.pc⟩ ∧
      m.next.pc = m'.pc ∧ m.next.steps = m'.steps + 1 ∧ m.next.stack = m'.stack ∧
      m.next.vars = m'.vars ∧ m.next.output.toList = m'.next.output.toList.take k := by
  obtain ⟨v, w, hv, hw, hn⟩ := hf.print
  obtain ⟨x, rfl, hstack, hvars, told, hbt, hut, hfits⟩ := h
  have hpr : (m.withStore x).printing? = some v := by rw [printing?_withStore m hstack, hv]
  by_cases hmore : s.Fits (told ++ printed v)
  · obtain ⟨_, hw', -⟩ := hb.write_of_fits hs.chunk hbt hmore
    rw [hw'] at hw
    cases hw
  obtain ⟨k, hk, hlt⟩ := Sink.not_fits_iff.1 hmore
  obtain ⟨w', hw', hview⟩ := hb.write_of_room_lt hs.chunk hbt hk (hfits k hk) hlt
  rw [hw'] at hw
  cases hw
  obtain ⟨u, hwu, huview⟩ :=
    hu.write_of_fits ht.chunk hut (Sink.fits_of_unlimited hroom (told ++ printed v))
  have hbefore : (m.withStore x).output = String.ofList told :=
    (output_of_took hb hu hs ht hbt hut).2
  have hwu' : Writer.write (m.withStore x).store.sink (printed v) = (.ok (), u) := hwu
  have hafter : (m.withStore x).next.output = String.ofList (told ++ printed v) := by
    unfold output
    rw [hu.accepted, sink_next, hpr]
    dsimp only
    rw [hwu', huview, ht.accepted_take]
  have hleft : m.next.output = String.ofList ((told ++ printed v).take k) := by
    rw [hn, output, hb.accepted, hview, hs.accepted_take]
  refine ⟨k, v, hk, hpr, ?_, ?_, ?_⟩
  · rw [hbefore, String.toList_ofList]
    exact hfits k hk
  · rwa [hafter, String.toList_ofList]
  · rw [hafter, hleft, String.toList_ofList, String.toList_ofList, hn]
    exact ⟨rfl, rfl, rfl, congrArg Stack.toList hstack.symm, hvars.symm, rfl⟩

end

section

variable {U : Type} [Writer U] {vu : U → Sink}

theorem output_after (hu : Writer.ActsAs vu) (p : Program) (l : Limits) {u : U} (ht : (vu u).Fresh)
    (hroom : (vu u).room = none) (n : Nat) :
    ((start p l u).after n).output =
      String.ofList (((start p l u).printedIn n).flatMap printed) := by
  rw [output, hu.accepted, sink_after hu ht.chunk hroom]
  exact ht.accepted_take _

theorem utf8ByteSize_output (hu : Writer.ActsAs vu) (p : Program) (l : Limits) {u : U}
    (ht : (vu u).Fresh) (hroom : (vu u).room = none) {n : Nat} {text : List Char}
    (h : text <+: ((start p l u).after n).output.toList) :
    (String.ofList text).utf8ByteSize = text.length := by
  rw [output_after hu p l ht hroom, String.toList_ofList] at h
  exact utf8ByteSize_of_prefix h

end

/-- What is printed to a sink without a limit are the tops of the stack that `PRINT` found, each on
a line of its own, and they can be read back from it. A machine whose sink is limited is in the same
state after as many steps, as long as all this text has room. Otherwise it has faulted at the first
`PRINT` that exceeds the room, and its output is the beginning of that text that has just as many
bytes. In both cases it makes no difference in what pieces the sinks take what they are handed. -/
theorem bounded_sink_agrees {B U : Type} [Writer B] [Writer U] {vb : B → Sink} {vu : U → Sink}
    (hb : Writer.ActsAs vb) (hu : Writer.ActsAs vu) (p : Program) (l : Limits) (b : B) (u : U)
    (hs : (vb b).Fresh) (ht : (vu u).Fresh) (hroom : (vu u).room = none) (n : Nat) :
    let unlimited := (start p l u).after
    let cells := (start p l u).printedIn n
    let m := (start p l b).after n
    (unlimited n).output = String.ofList (cells.flatMap printed) ∧
      readLines (unlimited n).output = cells.map (fun v => some v.toInt) ∧
      ((∀ k, (vb b).room = some k → (unlimited n).output.utf8ByteSize ≤ k) →
        m.status = (unlimited n).status ∧ m.pc = (unlimited n).pc ∧
          m.steps = (unlimited n).steps ∧ m.stack = (unlimited n).stack ∧
          m.vars = (unlimited n).vars ∧ m.output = (unlimited n).output) ∧
      ∀ k, (vb b).room = some k → k < (unlimited n).output.utf8ByteSize →
        ∃ j v, j < n ∧ (unlimited j).printing? = some v ∧
          (∀ i ≤ j, (unlimited i).output.utf8ByteSize ≤ k) ∧
          k < (unlimited (j + 1)).output.utf8ByteSize ∧
          m.status = .faulted
            ⟨.output ((vb b).refusal.getD Sink.stalled), (unlimited j).pc⟩ ∧
          m.pc = (unlimited j).pc ∧ m.steps = (unlimited j).steps + 1 ∧
          m.stack = (unlimited j).stack ∧ m.vars = (unlimited j).vars ∧
          m.output.toList <+: (unlimited n).output.toList ∧ m.output.utf8ByteSize = k := by
  intro unlimited cells m
  have hout : (unlimited n).output = String.ofList (cells.flatMap printed) :=
    output_after hu p l ht hroom n
  have hbytes : ∀ i, (unlimited i).output.utf8ByteSize = (unlimited i).output.toList.length := by
    intro i
    have := utf8ByteSize_output hu p l ht hroom (List.prefix_refl (unlimited i).output.toList)
    rwa [String.ofList_toList] at this
  have hmono : ∀ {i j}, i ≤ j → (unlimited i).output.toList <+: (unlimited j).output.toList :=
    fun h => output_prefix_after _ h
  have hrun := (inStep_start vb vu p l b u).after (Store.simulation_of_sinks _ _)
    (Took.print hb hu hs.chunk ht.chunk hroom) n
  refine ⟨hout, by rw [hout, readLines_printed], ?_⟩
  rcases hrun with hn | ⟨j, hj, hstep, hf⟩
  · obtain ⟨hsame, hfits⟩ := hn.agrees hb hu hs ht
    refine ⟨fun _ => hsame, ?_⟩
    intro k hk hlt
    rw [hbytes] at hlt
    exact absurd (hfits k hk) (Nat.not_le.2 hlt)
  · obtain ⟨k, v, hk, hv, hle, hlt, hst, hpc, hsteps, hstack, hvars, htaken⟩ :=
      hstep.overflows hb hu hs ht hroom hf
    have hnext : ((start p l u).after j).next = unlimited (j + 1) := rfl
    rw [hnext] at hlt htaken
    obtain ⟨hstay, -⟩ := hf.after hj
    have hm : m = ((start p l b).after j).next := hstay
    have hprefix : m.output.toList <+: (unlimited n).output.toList := by
      rw [hm, htaken]
      exact (List.take_prefix _ _).trans (hmono hj)
    refine ⟨?_, ?_⟩
    · intro h
      have := h k hk
      rw [hbytes] at this
      exact absurd ((hmono hj).length_le.trans this) (Nat.not_le.2 hlt)
    · intro k' hk' _
      obtain rfl : k = k' := Option.some.inj (hk.symm.trans hk')
      refine ⟨j, v, hj, hv, ?_, ?_, ?_⟩
      · intro i hi
        rw [hbytes]
        exact (hmono hi).length_le.trans hle
      · rw [hbytes]
        exact hlt
      · have hlen : m.output.utf8ByteSize = k := by
          have := utf8ByteSize_output hu p l ht hroom hprefix
          rw [String.ofList_toList] at this
          rw [this, hm, htaken]
          exact List.length_take_of_le hlt.le
        rw [hm] at hprefix hlen ⊢
        exact ⟨hst, hpc, hsteps, hstack, hvars, hprefix, hlen⟩

/-- With room for two bytes the sign and the first digit of a negative number are printed, byte by
byte, and then the machine faults. -/
theorem bounded_sink_agrees_negative :
    let b : Sink := ⟨some 2, some 1, some "closed", ""⟩
    let m := (start #[0, -120, 8] {} b).after 2
    (b.Fresh ∧ Sink.unbounded.Fresh ∧ Sink.unbounded.room = none) ∧
      m.status = .faulted ⟨.output "closed", 2⟩ ∧ m.output.toList <+: "-120\n".toList ∧
      m.output.utf8ByteSize = 2 := by
  intro b m
  have hs : b.Fresh := ⟨by decide, rfl⟩
  have ht : Sink.unbounded.Fresh := ⟨by decide, rfl⟩
  have hall : ((start #[0, -120, 8] {} Sink.unbounded).after 2).output = "-120\n" := by
    decide +kernel
  refine ⟨⟨hs, ht, rfl⟩, ?_⟩
  obtain ⟨-, -, -, h⟩ :=
    bounded_sink_agrees Sink.actsAs Sink.actsAs #[0, -120, 8] {} b Sink.unbounded hs ht rfl 2
  obtain ⟨j, v, hj, hv, -, -, hst, -, -, -, -, hprefix, hlen⟩ :=
    h 2 rfl (by rw [hall]; decide)
  rw [hall] at hprefix
  refine ⟨?_, hprefix, hlen⟩
  obtain rfl | rfl : j = 0 ∨ j = 1 := by omega
  · have hpush : ((start #[0, -120, 8] {} Sink.unbounded).after 0).printing? = none := rfl
    rw [hpush] at hv
    cases hv
  · have hpc : ((start #[0, -120, 8] {} Sink.unbounded).after 1).pc = 2 := rfl
    rw [hpc] at hst
    exact hst

end Machine

end StackMachine
