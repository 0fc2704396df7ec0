import Drpc.Net.AsyncWrite
import Drpc.Util.OutputBuffer

/-! # Sending what was appended

`async_write` on the chained buffer: the bytes on the wire are a front part of the
bytes appended, and the buffer keeps the others (`sent_once`), as long as no call
goes on after a short write. A turn after a short write offers the same bytes
again (`sent_twice`), since what was accepted is committed only after the loop.
-/

namespace Drpc.Net

open Transition Util ChainedBuffer

/-- What happens to the write buffer of a connection. -/
inductive SendOp where
  /-- `OutputStream::write` -/
  | write (data : Bytes)
  /-- `OutputStream::Next`; the caller puts `source` into the region. -/
  | next (source : Nat → UInt8)
  /-- `OutputStream::BackUp` -/
  | backUp (count : Nat)
  /-- `async_write`, with what `::writev` gives. -/
  | asyncWrite (results : List WriteResult)

/-- The write buffer, with what was appended to it and what was accepted from it. -/
structure Sending where
  buffer : ChainedBuffer
  region : Option Nat
  /-- All bytes appended so far. -/
  appended : Bytes
  /-- All bytes `::writev` has accepted so far. -/
  accepted : Bytes
  /-- What each call has passed to `commit_send`, and `size()` then. -/
  commits : List (Nat × Nat)

def Sending.init (memory : Ptr → Nat → UInt8) : Sending := ⟨.init memory, none, [], [], []⟩

/-- The bytes each turn of the loop of `async_write` offers. -/
def Sending.offered (s : Sending) : Bytes := s.buffer.getIovecs.flatten

/-- One step; it is `none` where the source does not return. -/
def SendOp.run (s : Sending) : SendOp → Option Sending
  | .write data =>
      (s.buffer.write 4096 data).map fun (buffer, _) =>
        { s with buffer, region := none, appended := s.appended ++ data }
  | .next source =>
      (s.buffer.outputNext 4096).map fun (buffer, node, offset, size) =>
        let region := (List.range size.toNat).map source
        { s with
          buffer := buffer.fill node offset region, region := some size.toNat
          appended := s.appended ++ region }
  | .backUp count =>
      (s.buffer.outputBackUp count).map fun buffer =>
        { s with
          buffer, region := none
          appended := s.appended.take (s.appended.length - count) }
  | .asyncWrite results =>
      let outcome := writeLoop s.offered (needWrite s.buffer.totalSize) 0 results
      (s.buffer.commitSend outcome.written).map fun buffer =>
        { s with
          buffer, region := none
          accepted := s.accepted ++ outcome.bytes
          commits := s.commits ++ [(outcome.written, s.buffer.totalSize)] }

/-- How the steps come: a region is returned right after it was given, and the
kernel accepts no more than it was offered. -/
def SendOp.Allowed (s : Sending) : SendOp → Prop
  | .write _ | .next _ => True
  | .backUp count => ∃ size ∈ s.region, count ≤ size
  | .asyncWrite results => Accepts s.offered results

/-- After a short write nothing more is accepted in the same call, and `Next` finds
room in the tail. -/
def SendOp.Unrepeated (s : Sending) : SendOp → Prop
  | .next _ => ∀ tail ∈ s.buffer.tail, (s.buffer.block tail).full 4096 = false
  | .asyncWrite results => ShortWriteEnds (needWrite s.buffer.totalSize) results
  | .write _ | .backUp _ => True

instance SendOp.decidableAllowed (s : Sending) (op : SendOp) : Decidable (op.Allowed s) := by
  cases op <;> unfold SendOp.Allowed <;> infer_instance

instance SendOp.decidableUnrepeated (s : Sending) (op : SendOp) :
    Decidable (op.Unrepeated s) := by
  cases op <;> unfold SendOp.Unrepeated <;> infer_instance

/-- Every byte goes on the wire once: what was accepted and what is left in the
buffer are together what was appended, `size()` counts what is left, and no call
has committed more than there was. -/
def Sending.Once (s : Sending) : Prop :=
  s.accepted ++ s.buffer.contents = s.appended ∧
    s.buffer.totalSize = s.buffer.contents.length ∧
    ∀ commit ∈ s.commits, commit.1 ≤ commit.2

/-- The invariant. -/
def Sending.Inv (s : Sending) : Prop :=
  ∃ before last contents, s.buffer.Stores 4096 before last contents ∧
    s.accepted ++ contents = s.appended ∧
    (∀ size ∈ s.region, size ≤ last.size) ∧ ∀ commit ∈ s.commits, commit.1 ≤ commit.2

theorem Sending.Inv.once {s : Sending} (inv : s.Inv) : s.Once := by
  obtain ⟨before, last, contents, stores, once, -, commits⟩ := inv
  refine ⟨?_, ?_, commits⟩
  · rw [stores.contents_eq, once]
  · rw [stores.contents_eq, stores.totalSize]

/-- The offered bytes are the first of the contents. -/
theorem offered_prefix {s : Sending} {before : List BufferBlock} {last : BufferBlock}
    {contents : Bytes} (stores : s.buffer.Stores 4096 before last contents) :
    s.offered <+: contents := by
  rw [Sending.offered, stores.holds.getIovecs_eq, ← List.flatMap_def, ← stores.stored]
  conv_rhs => rw [← List.take_append_drop iovMax (before ++ [last]), List.flatMap_append]
  exact List.prefix_append ..

/-- **One step** is defined and keeps every byte that was not accepted. -/
theorem sending_inv {s : Sending} {op : SendOp} (inv : s.Inv) (allowed : op.Allowed s)
    (unrepeated : op.Unrepeated s) : ∃ next, op.run s = some next ∧ next.Inv := by
  obtain ⟨before, last, contents, stores, once, region, commits⟩ := inv
  cases op with
  | write data =>
      obtain ⟨buffer, front, back, run, stored⟩ := stores.write (by decide) data
      have still : s.accepted ++ (contents ++ data) = s.appended ++ data := by
        rw [← once, List.append_assoc]
      refine ⟨⟨buffer, none, _, s.accepted, s.commits⟩, ?_, front, back, _, stored, still, by simp,
        commits⟩
      simp only [SendOp.run, run, Option.map_some]
  | next source =>
      obtain ⟨tail, found, same, -⟩ := stores.tail
      have notFull := unrepeated tail found
      rw [same] at notFull
      have space : last.writePos < 4096 := by
        have within := stores.lastSound.within
        simp only [BufferBlock.full, decide_eq_false_iff_not] at notFull
        omega
      obtain ⟨buffer, node, run, filled⟩ := stores.outputNext space
      obtain ⟨after, stored, long⟩ := filled
        ((List.range (4096 - last.writePos)).map source) (by simp)
      simp only [List.length_map, List.length_range] at long
      have given : ∀ size ∈ some (4096 - last.writePos), size ≤ after.size := by
        rintro _ ⟨⟩
        exact long
      have still : s.accepted ++ (contents ++ (List.range (4096 - last.writePos)).map source) =
          s.appended ++ (List.range (4096 - last.writePos)).map source := by
        rw [← once, List.append_assoc]
      refine ⟨⟨_, some (4096 - last.writePos), _, s.accepted, s.commits⟩, ?_, before, after, _,
        stored, still, given, commits⟩
      simp only [SendOp.run, run, Option.map_some, Int.toNat_natCast]
      rfl
  | backUp count =>
      obtain ⟨size, given, less⟩ := allowed
      have enough : count ≤ last.size := less.trans (region size given)
      have long : last.size ≤ contents.length := by
        rw [stores.split, List.length_append, BufferBlock.length_unread]
        omega
      obtain ⟨buffer, after, run, stored⟩ := stores.outputBackUp enough
      have still : s.accepted ++ contents.take (contents.length - count) =
          s.appended.take (s.appended.length - count) := by
        have front : (s.accepted ++ contents).length - count =
            s.accepted.length + (contents.length - count) := by
          rw [List.length_append]
          omega
        rw [← once, front, List.take_length_add_append]
      refine ⟨⟨buffer, none, _, s.accepted, s.commits⟩, ?_, before, after, _, stored, still,
        by simp, commits⟩
      simp only [SendOp.run, run, Option.map_some]
  | asyncWrite results =>
      obtain ⟨n, within, outcome⟩ := writeLoop_of_shortWriteEnds allowed unrepeated
      have offered := offered_prefix stores
      have most : n ≤ contents.length := within.trans offered.length_le
      obtain ⟨buffer, front, back, run, stored⟩ := stores.commitSend most
      have still : (s.accepted ++ s.offered.take n) ++ contents.drop n = s.appended := by
        have same : s.offered.take n = contents.take n := by
          obtain ⟨rest, rfl⟩ := offered
          rw [List.take_append_of_le_length within]
        rw [same, List.append_assoc, List.take_append_drop, once]
      have counted : ∀ commit ∈ s.commits ++ [(n, s.buffer.totalSize)], commit.1 ≤ commit.2 := by
        intro commit member
        rw [List.mem_append, List.mem_singleton] at member
        rcases member with old | rfl
        · exact commits commit old
        · rwa [stores.totalSize]
      refine ⟨⟨buffer, none, s.appended, _, _⟩, ?_, front, back, _, stored, still, by simp,
        counted⟩
      simp only [SendOp.run, outcome, run, Option.map_some]

/-- **Every byte goes on the wire once** in every run in which a short write ends its
call and `Next` finds room in the tail: every operation returns, the accepted bytes are
a front part of the appended ones, and the buffer holds the others. -/
theorem sent_once (memory : Ptr → Nat → UInt8) (ops : List SendOp)
    (allowed : Along SendOp.run (fun s op => op.Allowed s) (.init memory) ops)
    (unrepeated : Along SendOp.run (fun s op => op.Unrepeated s) (.init memory) ops) :
    ∃ s, exec SendOp.run (.init memory) ops = some s ∧ s.Once := by
  have start : (Sending.init memory).Inv :=
    ⟨[], _, [], stores_init memory (by decide), rfl, by simp [Sending.init],
      by simp [Sending.init]⟩
  obtain ⟨s, run, inv⟩ := exec_total (fun s op inv both =>
    sending_inv inv both.1 both.2) start (along_and allowed unrepeated)
  exact ⟨s, run, inv.once⟩

/-- Five bytes, of which a first call sends two and a second one the others. -/
theorem sent_once_of_short :
    ∃ s, exec SendOp.run (.init fun _ _ => 0)
        [.write [1, 2, 3], .asyncWrite [.interrupted, .accepted 2, .again],
          .write [4, 5], .asyncWrite [.accepted 3]] = some s ∧ s.Once := by
  refine sent_once (fun _ _ => 0) _ ?_ ?_
  · decide +kernel
  · decide +kernel

/-- Two bytes, accepted one at a time: the first is sent twice, and the second never,
although the buffer is empty after the call. -/
theorem sent_twice :
    ¬ ∀ (memory : Ptr → Nat → UInt8) (ops : List SendOp),
      Along SendOp.run (fun s op => op.Allowed s) (.init memory) ops →
        ∃ s, exec SendOp.run (.init memory) ops = some s ∧ s.Once := by
  intro always
  obtain ⟨s, run, once, -⟩ := always (fun _ _ => 0)
    [.write [1, 2], .asyncWrite [.accepted 1, .accepted 1]] (by decide +kernel)
  have sent : ∀ s ∈ exec SendOp.run (.init fun _ _ => 0)
      [.write [1, 2], .asyncWrite [.accepted 1, .accepted 1]],
      s.accepted = [1, 1] ∧ s.appended = [1, 2] ∧ s.buffer.contents = [] := by
    decide +kernel
  obtain ⟨wire, given, left⟩ := sent s run
  rw [wire, given, left] at once
  exact absurd once (by decide)

end Drpc.Net
