import Cornerstone.PackImage

/-! # The entries in memory are the last ones of the store

`log_entries` and `entry_at` rely on it that the entries in memory end where the store
ends; `entry_at` and `term_at` answer from memory what the files would answer.  `write_at`
breaks the first where it writes below the entries in memory: `trim` leaves them alone
then, and the new entry is appended to them.  It breaks the second where it writes a
shorter entry over the last one.
-/

namespace Cornerstone
open OffsetFile

/-- The operations of a store, packs from elsewhere included. -/
inductive PackedOp
  | own (op : StoreOp)
  | applyPack (index : Nat) (pack : Bytes)

def FsLogStore.performPacked (s : FsLogStore) : PackedOp → Option FsLogStore
  | .own op => s.perform op
  | .applyPack index pack => s.applyPack index pack

def FsLogStore.runPacked (s : FsLogStore) : List PackedOp → Option FsLogStore
  | [] => some s
  | op :: ops => (s.performPacked op).bind (·.runPacked ops)

/-- The entries in memory are the last ones of the store, and every entry is read the same
from memory and from the files. -/
structure InStep (s : FsLogStore) : Prop where
  suffix : s.buf.lastIdx = s.nextSlot
  window : ∀ idx, s.buf.startIdx ≤ idx → idx < s.buf.lastIdx →
    ∃ e, s.buf.at? idx = some e ∧ s.storedAt idx = some e
  reads : ∀ idx, s.startIdx ≤ idx → idx < s.nextSlot →
    ∃ e, s.storedAt idx = some e ∧ s.entryAt idx = some e ∧ s.termAt idx = some e.term

/-- An entry is written over one in memory, or behind the last, and no byte of another
stays behind it. -/
def Reaches (s : FsLogStore) : StoreOp → Prop
  | .writeAt index e => (index = s.nextSlot ∨ s.buf.startIdx ≤ index) ∧
      ∀ pos, s.dataPos (index - s.startIdx) = some pos →
        s.leftBehind (index - s.startIdx) pos [e.serialize] = []
  | _ => True

/-- The operation fits, an entry is written where it reaches, and a pack starts where it is
written. -/
def SoundOp (s : FsLogStore) : PackedOp → Prop
  | .own op => s.Fits op ∧ Reaches s op
  | .applyPack index pack => (s.startIdx ≤ index ∧ index ≤ s.nextSlot) ∧
      ∃ pos segs, s.dataPos (index - s.startIdx) = some pos ∧ pack = packOf pos segs ∧
        PackFits s (index - s.startIdx) pos segs

/-- Every operation of a run is sound in the state it is performed in. -/
def SoundRun (s : FsLogStore) : List PackedOp → Prop
  | [] => True
  | op :: ops => SoundOp s op ∧ ∀ s', s.performPacked op = some s' → SoundRun s' ops

variable {s : FsLogStore} {segs : List Bytes} {es : List LogEntry}

/-- A window of the last entries over files laid out is in step with them. -/
theorem Window.inStep (hlaid : Laid s segs es) (hwin : Window s es) : InStep s := by
  have hnext := hlaid.nextSlot_eq
  have hcount := hlaid.count
  rw [hlaid.decodes.length] at hcount
  have hat : ∀ idx, s.startIdx ≤ idx → idx < s.nextSlot →
      ∃ k e, idx = s.startIdx + k ∧ k < bufferLimit ∧ es[k]? = some e := by
    intro idx hge hlt
    have hk : idx - s.startIdx < es.length := by omega
    exact ⟨idx - s.startIdx, es[idx - s.startIdx], by omega, by omega, List.getElem?_eq_getElem hk⟩
  have hlast : s.buf.lastIdx = s.nextSlot := by
    rw [hnext]
    exact hwin.last
  refine ⟨hlast, fun idx hge hlt => ?_, fun idx hge hlt => ?_⟩
  · obtain ⟨k, e, rfl, -, he⟩ := hat idx (hwin.ge.trans hge) (hlast ▸ hlt)
    exact ⟨e, by rw [hwin.at?_run hge, he], hlaid.image.storedAt_run hlaid.decodes he⟩
  · obtain ⟨k, e, rfl, hk, he⟩ := hat idx hge hlt
    exact ⟨e, hlaid.image.storedAt_run hlaid.decodes he, hlaid.image.entryAt_run hlaid.decodes hwin he,
      hlaid.image.termAt_run hlaid.decodes hwin he hk⟩

/-- An entry written where it reaches keeps the window. -/
theorem Laid.writeAt_window {k : Nat} {e : LogEntry} (hlaid : Laid s segs es) (hwin : Window s es)
    (hf : s.Fits (.writeAt (s.startIdx + k) e)) (hr : Reaches s (.writeAt (s.startIdx + k) e)) :
    ∃ s' segs', s.writeAt (s.startIdx + k) e = some s' ∧ Laid s' segs' (es.take k ++ [e]) ∧
      Window s' (es.take k ++ [e]) := by
  obtain ⟨hin, hleft⟩ := hr
  have hlen := hlaid.decodes.length
  have hle := hf.1.2
  rw [hlaid.image.entries] at hle
  have hk : k ≤ segs.length := Nat.le_of_add_le_add_left hle
  rw [Nat.add_sub_cancel_left] at hleft
  have hstale := hleft _ (hlaid.image.dataPos_run hk)
  rw [hlaid.image.leftBehind_eq] at hstale
  obtain ⟨hrun, hlaid'⟩ := hlaid.writeAt hf
  rw [hstale, List.append_nil] at hlaid'
  refine ⟨_, _, hrun, hlaid', ?_⟩
  rcases Nat.lt_or_ge k es.length with hlt | hge
  · have hmem : s.buf.startIdx ≤ s.startIdx + k := by
      rcases hin with hend | hmem
      · rw [hlaid.nextSlot_eq] at hend
        omega
      · exact hmem
    refine hwin.trim_append e hlt hmem rfl rfl ?_
    rw [Image.rewritten, if_pos (by rw [hlaid.image.entries]; omega)]
  · have hall : es.take k = es := List.take_of_length_le hge
    rw [hall]
    refine hwin.append e rfl rfl ?_
    rw [Image.rewritten, if_neg (by rw [hlaid.image.entries]; omega)]

/-- **One operation** that is sound keeps the window. -/
theorem Laid.performPacked {op : PackedOp} (hlaid : Laid s segs es) (hwin : Window s es) (hop : SoundOp s op) :
    ∃ s' segs' es', s.performPacked op = some s' ∧ Laid s' segs' es' ∧ Window s' es' := by
  cases op with
  | own op =>
    obtain ⟨hf, hr⟩ := hop
    cases op with
    | append e =>
      obtain ⟨hrun, hlaid'⟩ := hlaid.append hf
      exact ⟨_, _, _, hrun, hlaid', hwin.append e rfl rfl rfl⟩
    | writeAt index e =>
      obtain ⟨k, rfl⟩ : ∃ k, index = s.startIdx + k := Nat.exists_eq_add_of_le hf.1.1
      obtain ⟨s', segs', hrun, h'⟩ := hlaid.writeAt_window hwin hf hr
      exact ⟨s', segs', _, hrun, h'⟩
    | compact last =>
      obtain ⟨k, rfl⟩ : ∃ k, last = s.startIdx + k := Nat.exists_eq_add_of_le hf.1
      obtain ⟨s', hrun, hlaid', hwin', -⟩ := hlaid.compact hf
      exact ⟨s', _, _, hrun, hlaid', hwin'⟩
    | reopen bufSize =>
      obtain ⟨s', hrun, hlaid', hwin', -⟩ := hlaid.reopen hf
      exact ⟨s', _, _, hrun, hlaid', hwin'⟩
  | applyPack index pack =>
    obtain ⟨⟨hge, hle⟩, pos, segs', hpos, rfl, hf⟩ := hop
    obtain ⟨k, rfl⟩ : ∃ k, index = s.startIdx + k := Nat.exists_eq_add_of_le hge
    rw [Nat.add_sub_cancel_left] at hpos hf
    rw [hlaid.image.nextSlot_eq] at hle
    obtain ⟨s', es', hrun, hlaid', hwin', -⟩ := hlaid.applyPack (Nat.le_of_add_le_add_left hle) hpos hf
    exact ⟨s', _, es', hrun, hlaid', hwin'⟩

theorem Laid.runPacked {ops : List PackedOp} (hlaid : Laid s segs es) (hwin : Window s es)
    (hops : SoundRun s ops) : ∃ s' segs' es', s.runPacked ops = some s' ∧ Laid s' segs' es' ∧ Window s' es' := by
  induction ops generalizing s segs es with
  | nil => exact ⟨s, segs, es, rfl, hlaid, hwin⟩
  | cons op ops ih =>
    obtain ⟨s₁, segs₁, es₁, hstep, hlaid₁, hwin₁⟩ := hlaid.performPacked hwin hops.1
    obtain ⟨s', segs', es', hrun, h'⟩ := ih hlaid₁ hwin₁ (hops.2 s₁ hstep)
    refine ⟨s', segs', es', ?_, h'⟩
    rw [FsLogStore.runPacked, hstep, Option.bind_some]
    exact hrun

/-- **The entries in memory stay the last ones of the store**, in every run in which every
operation is sound. -/
theorem window_in_step {bufSize : Int} (ops : List PackedOp) (hpos : 1 ≤ bufferSize bufSize)
    (hops : ∀ s, FsLogStore.openOn {} bufSize = some s → SoundRun s ops) :
    ∃ s, (FsLogStore.openOn {} bufSize).bind (·.runPacked ops) = some s ∧ InStep s := by
  obtain ⟨s₀, hopen, hlaid, hwin, -⟩ := Laid.fresh hpos
  obtain ⟨s, segs, es, hrun, hlaid', hwin'⟩ := hlaid.runPacked hwin (hops s₀ hopen)
  refine ⟨s, ?_, hwin'.inStep hlaid'⟩
  rw [hopen, Option.bind_some, hrun]

theorem SoundRun.cons {s₁ : FsLogStore} {op : PackedOp} {ops : List PackedOp} (hop : SoundOp s op)
    (hrun : s.performPacked op = some s₁) (hops : SoundRun s₁ ops) : SoundRun s (op :: ops) :=
  ⟨hop, fun _ h => Option.some.inj (hrun.symm.trans h) ▸ hops⟩

/-- An entry, and a pack of two over it, the second of which stays in memory. -/
theorem window_in_step_packed :
    ∃ s, (FsLogStore.openOn {} 1).bind (·.runPacked [.own (.append ⟨1, [5], .appLog⟩),
        .applyPack 1 (packOf 0 [LogEntry.serialize ⟨2, [6], .appLog⟩, LogEntry.serialize ⟨2, [], .conf⟩])]) =
      some s ∧ InStep s := by
  refine window_in_step [.own (.append ⟨1, [5], .appLog⟩), .applyPack 1 (packOf 0
    [LogEntry.serialize ⟨2, [6], .appLog⟩, LogEntry.serialize ⟨2, [], .conf⟩])] (by decide) fun s₀ hopen => ?_
  obtain rfl : ⟨⟨[], [], LittleEndian.leBytes 8 1⟩, 0, 1, 1, ⟨1, 1, []⟩⟩ = s₀ := Option.some.inj hopen
  refine .cons ⟨by decide, trivial⟩ rfl ⟨⟨by decide, 0, _, rfl, rfl, ?_⟩, fun _ _ => trivial⟩
  refine ⟨fun seg hseg => ?_, by decide, by decide, by decide, by decide, by decide, by decide⟩
  rw [List.mem_cons, List.mem_singleton] at hseg
  rcases hseg with rfl | rfl
  · exact ⟨⟨2, [6], .appLog⟩, rfl⟩
  · exact ⟨⟨2, [], .conf⟩, rfl⟩

/-- With two of four entries in memory, an entry written below them is appended to them:
the buffer ends at 6 where the store ends at 3. -/
theorem window_in_step_fails :
    ∃ s, (FsLogStore.openOn {} 2).bind (·.runPacked [.own (.append ⟨1, [], .appLog⟩),
        .own (.append ⟨1, [], .appLog⟩), .own (.append ⟨1, [], .appLog⟩), .own (.append ⟨1, [], .appLog⟩),
        .own (.writeAt 2 ⟨2, [], .appLog⟩)]) = some s ∧ ¬ InStep s := by
  obtain ⟨s, hrun, hbuf, hnext⟩ : ∃ s, (FsLogStore.openOn {} 2).bind (·.runPacked
      [.own (.append ⟨1, [], .appLog⟩), .own (.append ⟨1, [], .appLog⟩), .own (.append ⟨1, [], .appLog⟩),
        .own (.append ⟨1, [], .appLog⟩), .own (.writeAt 2 ⟨2, [], .appLog⟩)]) = some s ∧
      s.buf.lastIdx = 6 ∧ s.nextSlot = 3 := ⟨_, rfl, by decide, by decide⟩
  refine ⟨s, hrun, fun h => ?_⟩
  have hsuffix := h.suffix
  omega

end Cornerstone
