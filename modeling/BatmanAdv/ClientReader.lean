import BatmanAdv.Packet
import Mathlib.Data.List.Infix
import Mathlib.Data.List.TakeWhile

/-!
# The client mode (`apply_init_args`)

What a client does with the text of the daemon: lines that start with `BOD` clear the screen, lines that
start with `EOD` end the batch mode, and all others are printed. Each `read` is looked at on its own: what
stands after its last newline is printed as it is, and the rest of that line then counts as a line.
-/

namespace BatmanAdv

/-! ## The loop -/

inductive ClientOutput where
  | printf (b : Byte)
  | clear
  /-- `Connection terminated by remote host`. -/
  | terminated
  deriving DecidableEq

def newline : Byte := 0x0a
def EOD : List Byte := [0x45, 0x4f, 0x44]
def BOD : List Byte := [0x42, 0x4f, 0x44]

/-- `strncmp( line, marker, 3 ) == 0`. -/
def starts (line marker : List Byte) : Prop := line.take 3 = marker

instance (line marker : List Byte) : Decidable (starts line marker) := inferInstanceAs (Decidable (_ = _))

/-- The inner loop, from the byte after `line`, which starts at `buff_ptr`. The second result is
`bytes_written` when the client exits. -/
def clientChunk (batchMode : Bool) (bytesWritten : ℕ) (line : List Byte) :
    List Byte → List ClientOutput × Option ℕ
  | [] => (line.map .printf, none)
  | b :: bytes =>
    if b = newline then
      if starts line EOD then
        if batchMode then ([], some bytesWritten)
        else clientChunk batchMode (bytesWritten + (line.length + 1)) [] bytes
      else
        let out : List ClientOutput :=
          if starts line BOD then if batchMode then [] else [.clear] else (line ++ [newline]).map .printf
        let rest := clientChunk batchMode (bytesWritten + (line.length + 1)) [] bytes
        (out ++ rest.1, rest.2)
    else clientChunk batchMode bytesWritten (line ++ [b]) bytes

/-- The outer loop. The second result is where in the stream the line starts at which the client exits. -/
def clientRead (batchMode : Bool) (received : ℕ) : List (List Byte) → List ClientOutput × Option ℕ
  | [] => ([.terminated], none)
  | chunk :: chunks =>
    -- `strchr` and `printf` stop at a `\0`
    let r := clientChunk batchMode 0 [] (chunk.takeWhile (· ≠ 0))
    match r.2 with
    | some bytesWritten => (r.1, some (received + bytesWritten))
    | none =>
      let rest := clientRead batchMode (received + chunk.length) chunks
      (r.1 ++ rest.1, rest.2)

structure Splits (stream : List Byte) (chunks : List (List Byte)) : Prop where
  flatten : chunks.flatten = stream
  length : ∀ chunk ∈ chunks, 1 ≤ chunk.length ∧ chunk.length ≤ 1500

/-- A piece up to a newline which the client does not print when it is read on its own. -/
def MarkerPiece (piece : List Byte) : Prop :=
  ∃ line, newline ∉ line ∧ (starts line EOD ∨ starts line BOD) ∧ piece = line ++ [newline]

/-- One `read` can give such a piece. -/
def HasMarker (stream : List Byte) : Prop :=
  ∃ piece, MarkerPiece piece ∧ piece.length ≤ 1500 ∧ piece <:+: stream

variable {batchMode : Bool} {bytesWritten received : ℕ} {line bytes stream piece : List Byte}
  {chunk : List Byte} {chunks : List (List Byte)}

/-! ## Text without markers -/

theorem HasMarker.mono (h : HasMarker bytes) (hin : bytes <:+: stream) : HasMarker stream := by
  obtain ⟨piece, hpiece, hlen, hpart⟩ := h
  exact ⟨piece, hpiece, hlen, hpart.trans hin⟩

theorem clientChunk_newline_free (h : newline ∉ bytes) (rest : List Byte) :
    clientChunk batchMode bytesWritten line (bytes ++ rest) =
      clientChunk batchMode bytesWritten (line ++ bytes) rest := by
  induction bytes generalizing line with
  | nil => simp
  | cons b bytes ih =>
    rw [List.mem_cons, not_or] at h
    rw [List.cons_append, clientChunk, if_neg (Ne.symm h.1), ih h.2, List.append_assoc, List.singleton_append]

theorem clientChunk_of_no_marker (hline : newline ∉ line) (hlen : (line ++ bytes).length ≤ 1500)
    (h : ¬ HasMarker (line ++ bytes)) :
    clientChunk batchMode bytesWritten line bytes = ((line ++ bytes).map .printf, none) := by
  induction bytes generalizing line bytesWritten with
  | nil => simp [clientChunk]
  | cons b bytes ih =>
    have hsplit : line ++ b :: bytes = (line ++ [b]) ++ bytes := by simp
    rw [clientChunk]
    by_cases hb : b = newline
    · subst hb
      -- the line is complete, so it is a piece of its own
      have hplain : ¬ (starts line EOD ∨ starts line BOD) := by
        intro hmark
        refine h ⟨line ++ [newline], ⟨line, hline, hmark, rfl⟩, ?_, ?_⟩
        · rw [hsplit, List.length_append] at hlen
          omega
        · rw [hsplit]
          exact List.infix_append' [] _ _
      rw [not_or] at hplain
      have hsuffix : bytes <:+: line ++ newline :: bytes :=
        (List.suffix_append (line ++ [newline]) bytes).isInfix.trans (by rw [hsplit])
      have hrest : clientChunk batchMode (bytesWritten + (line.length + 1)) [] bytes =
          (bytes.map .printf, none) := by
        apply ih List.not_mem_nil
        · exact hsuffix.length_le.trans hlen
        · exact fun hmarker => h (hmarker.mono hsuffix)
      rw [if_pos rfl, if_neg hplain.1, hrest, if_neg hplain.2]
      simp
    · rw [if_neg hb, hsplit]
      apply ih
      · simpa [hline] using Ne.symm hb
      · rwa [← hsplit]
      · rwa [← hsplit]

theorem takeWhile_of_nul_free (h : 0 ∉ bytes) : bytes.takeWhile (· ≠ 0) = bytes := by
  rw [List.takeWhile_eq_self_iff]
  intro b hb
  simpa using fun hzero : b = 0 => h (hzero ▸ hb)

theorem clientRead_append_of_no_marker (before : List (List Byte))
    (h : ∀ chunk ∈ before, 0 ∉ chunk ∧ chunk.length ≤ 1500 ∧ ¬ HasMarker chunk) :
    clientRead batchMode received (before ++ chunks) =
      (before.flatten.map .printf ++ (clientRead batchMode (received + before.flatten.length) chunks).1,
        (clientRead batchMode (received + before.flatten.length) chunks).2) := by
  induction before generalizing received with
  | nil => simp
  | cons chunk before ih =>
    obtain ⟨hnul, hlen, hmarker⟩ := h chunk (by simp)
    have hrest : clientRead batchMode (received + chunk.length) (before ++ chunks) = _ :=
      ih fun c hc => h c (by simp [hc])
    have hchunk : clientChunk batchMode 0 [] chunk = (chunk.map .printf, none) :=
      clientChunk_of_no_marker List.not_mem_nil hlen hmarker
    rw [List.cons_append, clientRead, takeWhile_of_nul_free hnul, hchunk]
    dsimp only
    rw [hrest, List.flatten_cons, List.map_append, List.length_append, List.append_assoc, ← Nat.add_assoc]

/-! ## How much is printed -/

def printed (out : List ClientOutput) : ℕ := out.countP fun o => o ≠ .clear ∧ o ≠ .terminated

theorem printed_append (out out' : List ClientOutput) : printed (out ++ out') = printed out + printed out' :=
  List.countP_append

theorem printed_map (bytes : List Byte) : printed (bytes.map .printf) = bytes.length := by
  unfold printed
  rw [List.countP_map, List.countP_eq_length.mpr]
  intro b _
  simp

theorem printed_clientChunk_le :
    printed (clientChunk batchMode bytesWritten line bytes).1 ≤ line.length + bytes.length := by
  induction bytes generalizing line bytesWritten with
  | nil => simp [clientChunk, printed_map]
  | cons b bytes ih =>
    have hrest : printed (clientChunk batchMode (bytesWritten + (line.length + 1)) [] bytes).1 ≤ 0 + bytes.length :=
      ih
    rw [clientChunk, List.length_cons]
    split_ifs
    · simp [printed]
    · omega
    · rw [printed_append]
      simp only [printed, List.countP_nil] at hrest ⊢
      omega
    · rw [printed_append]
      have hclear : printed [ClientOutput.clear] = 0 := rfl
      omega
    · rw [printed_append, printed_map, List.length_append, List.length_singleton]
      omega
    · have hnext : printed (clientChunk batchMode bytesWritten (line ++ [b]) bytes).1 ≤
          (line ++ [b]).length + bytes.length := ih
      rw [List.length_append, List.length_singleton] at hnext
      omega

theorem printed_clientRead_le : printed (clientRead batchMode received chunks).1 ≤ chunks.flatten.length := by
  induction chunks generalizing received with
  | nil => simp [clientRead, printed]
  | cons chunk chunks ih =>
    have hchunk : printed (clientChunk batchMode 0 [] (chunk.takeWhile (· ≠ 0))).1 ≤ chunk.length := by
      refine printed_clientChunk_le.trans ?_
      simpa using (List.takeWhile_prefix _).length_le
    rw [clientRead, List.flatten_cons, List.length_append]
    split
    · exact hchunk.trans (Nat.le_add_right ..)
    · rw [printed_append]
      exact Nat.add_le_add hchunk ih

theorem printed_marker (h : MarkerPiece piece) : printed (clientChunk batchMode 0 [] piece).1 = 0 := by
  obtain ⟨line, hline, hmark, rfl⟩ := h
  rw [clientChunk_newline_free hline, List.nil_append, clientChunk, if_pos rfl]
  split_ifs with heod hbatch hbod hbatch
  · rfl
  · rfl
  · rfl
  · rfl
  · exact absurd hmark (by simp [heod, hbod])

/-! ## Any two splits -/

def singles (stream : List Byte) : List (List Byte) := stream.map fun b => [b]

theorem flatten_singles (stream : List Byte) : (singles stream).flatten = stream := by
  unfold singles
  rw [List.map_eq_flatMap, List.flatten_eq_flatMap, List.flatMap_assoc]
  simp

theorem singles_splits (stream : List Byte) : Splits stream (singles stream) where
  flatten := flatten_singles stream
  length := by
    intro chunk hchunk
    obtain ⟨b, -, rfl⟩ := List.mem_map.mp hchunk
    simp

theorem MarkerPiece.length (h : MarkerPiece piece) : 4 ≤ piece.length := by
  obtain ⟨line, -, hmark, rfl⟩ := h
  rw [List.length_append, List.length_singleton]
  have hthree : (line.take 3).length = 3 := by
    rcases hmark with h | h <;> · rw [h]; rfl
  rw [List.length_take] at hthree
  omega

theorem singles_no_marker (hnul : 0 ∉ stream) :
    ∀ chunk ∈ singles stream, 0 ∉ chunk ∧ chunk.length ≤ 1500 ∧ ¬ HasMarker chunk := by
  intro chunk hchunk
  obtain ⟨b, hb, rfl⟩ := List.mem_map.mp hchunk
  refine ⟨?_, by simp, ?_⟩
  · rw [List.mem_singleton]
    rintro rfl
    exact hnul hb
  · rintro ⟨piece, hpiece, -, hpart⟩
    have hshort := hpart.length_le
    have hlong := hpiece.length
    rw [List.length_singleton] at hshort
    omega

theorem clientRead_singles (hnul : 0 ∉ stream) :
    clientRead batchMode received (singles stream) = (stream.map .printf ++ [.terminated], none) := by
  have h : clientRead batchMode received (singles stream ++ []) = _ :=
    clientRead_append_of_no_marker (singles stream) (singles_no_marker hnul)
  rwa [List.append_nil, flatten_singles] at h

theorem clientRead_marker {before after : List Byte} (hnul : 0 ∉ before ++ piece ++ after)
    (h : MarkerPiece piece) :
    printed (clientRead batchMode received (singles before ++ piece :: singles after)).1 <
      (before ++ piece ++ after).length := by
  rw [List.mem_append, List.mem_append, not_or, not_or] at hnul
  rw [clientRead_append_of_no_marker _ (singles_no_marker hnul.1.1), flatten_singles, printed_append, printed_map]
  have hlen := h.length
  have hafter : printed (clientRead batchMode (received + before.length) (piece :: singles after)).1 ≤
      after.length := by
    rw [clientRead, takeWhile_of_nul_free hnul.1.2]
    split
    · rw [printed_marker h]
      exact Nat.zero_le _
    · rw [printed_append, printed_marker h, Nat.zero_add]
      refine printed_clientRead_le.trans ?_
      rw [flatten_singles]
  rw [List.length_append, List.length_append]
  omega

/-- **What the client does is the same for all splits of a stream just when no `read` can give a marker.** -/
theorem clientRead_splits_iff (batchMode : Bool) (stream : List Byte) (hnul : 0 ∉ stream) :
    (∀ chunks chunks', Splits stream chunks → Splits stream chunks' →
      clientRead batchMode 0 chunks = clientRead batchMode 0 chunks') ↔ ¬ HasMarker stream := by
  constructor
  · rintro hsame ⟨piece, hpiece, hshort, before, after, rfl⟩
    have hsplits : Splits (before ++ piece ++ after) (singles before ++ piece :: singles after) := by
      constructor
      · rw [List.flatten_append, List.flatten_cons, flatten_singles, flatten_singles, List.append_assoc]
      · intro chunk hchunk
        rw [List.mem_append, List.mem_cons] at hchunk
        obtain hchunk | rfl | hchunk := hchunk
        · exact (singles_splits before).length chunk hchunk
        · exact ⟨Nat.le_trans (by decide) hpiece.length, hshort⟩
        · exact (singles_splits after).length chunk hchunk
    have hless : printed (clientRead batchMode 0 (singles before ++ piece :: singles after)).1 < _ :=
      clientRead_marker hnul hpiece
    rw [hsame _ _ hsplits (singles_splits _), clientRead_singles hnul, printed_append, printed_map] at hless
    exact absurd hless (by simp [printed])
  · intro hmarker
    -- every split prints the stream
    have hplain : ∀ chunks, Splits stream chunks →
        clientRead batchMode 0 chunks = (stream.map .printf ++ [.terminated], none) := by
      intro chunks hsplits
      have hchunks : ∀ chunk ∈ chunks, 0 ∉ chunk ∧ chunk.length ≤ 1500 ∧ ¬ HasMarker chunk := by
        intro chunk hchunk
        have hpart : chunk <:+: stream := by
          rw [← hsplits.flatten]
          exact List.infix_of_mem_flatten hchunk
        exact ⟨fun h => hnul (hpart.subset h), (hsplits.length chunk hchunk).2, fun h => hmarker (h.mono hpart)⟩
      have h : clientRead batchMode 0 (chunks ++ []) = _ := clientRead_append_of_no_marker chunks hchunks
      rwa [List.append_nil, hsplits.flatten] at h
    intro chunks chunks' hchunks hchunks'
    rw [hplain chunks hchunks, hplain chunks' hchunks']

/-- A line `BOD` clears the screen. Cut behind its first byte it does not, and `BOD` shows. -/
theorem clientRead_not_chunk_free :
    ¬ ∀ (batchMode : Bool) (stream : List Byte), 0 ∉ stream → ∀ chunks chunks', Splits stream chunks →
      Splits stream chunks' → clientRead batchMode 0 chunks = clientRead batchMode 0 chunks' := by
  intro h
  have hsame := h false (BOD ++ [newline]) (by decide) [BOD ++ [newline]] [[0x42], [0x4f, 0x44, newline]]
    ⟨rfl, by decide⟩ ⟨rfl, by decide⟩
  exact absurd hsame (by decide)

theorem HasMarker.letters (h : HasMarker stream) : EOD <:+: stream ∨ BOD <:+: stream := by
  obtain ⟨piece, ⟨line, -, hmark, rfl⟩, -, hpart⟩ := h
  have hfirst : line.take 3 <:+: stream :=
    ((List.take_prefix 3 line).trans (List.prefix_append line [newline])).isInfix.trans hpart
  rcases hmark with heod | hbod
  · left
    rwa [heod] at hfirst
  · right
    rwa [hbod] at hfirst

def Net.lines (first second third : List Byte) : List Byte :=
  first ++ newline :: second ++ newline :: third ++ [newline]

/-- The letters of both markers over the ends of lines do no harm, and `BOD` between two other lines does. -/
theorem clientRead_splits_iff_lines :
    (∀ chunks chunks', Splits (Net.lines [0x42, 0x4f] [0x44, 0x45] [0x4f, 0x44]) chunks →
      Splits (Net.lines [0x42, 0x4f] [0x44, 0x45] [0x4f, 0x44]) chunks' →
        clientRead true 0 chunks = clientRead true 0 chunks') ∧
      ¬ ∀ chunks chunks', Splits (Net.lines [0x42, 0x4f] BOD [0x4f, 0x44]) chunks →
        Splits (Net.lines [0x42, 0x4f] BOD [0x4f, 0x44]) chunks' →
          clientRead true 0 chunks = clientRead true 0 chunks' := by
  constructor
  · apply (clientRead_splits_iff true _ (by decide)).mpr
    intro hmarker
    exact absurd hmarker.letters (by decide)
  · intro hsame
    apply (clientRead_splits_iff true _ (by decide)).mp hsame
    exact ⟨BOD ++ [newline], ⟨BOD, by decide, .inr rfl, rfl⟩, by decide, by decide⟩

/-! ## Splits at the ends of lines -/

/-- `bytes_written` only counts. -/
theorem clientChunk_add (k : ℕ) :
    clientChunk batchMode (k + bytesWritten) line bytes =
      ((clientChunk batchMode bytesWritten line bytes).1,
        (clientChunk batchMode bytesWritten line bytes).2.map (k + ·)) := by
  induction bytes generalizing line bytesWritten with
  | nil => rfl
  | cons b bytes ih =>
    rw [clientChunk, clientChunk]
    split_ifs
    · rfl
    · rw [Nat.add_assoc, ih]
    · rw [Nat.add_assoc, ih]
    · rw [Nat.add_assoc, ih]
    · rw [Nat.add_assoc, ih]
    · exact ih

/-- First the one, then the other unless the client has exited. -/
def unlessExit (r rest : List ClientOutput × Option ℕ) : List ClientOutput × Option ℕ :=
  if r.2 = none then (r.1 ++ rest.1, rest.2) else r

theorem unlessExit_prepend (out : List ClientOutput) (r rest : List ClientOutput × Option ℕ) :
    (out ++ (unlessExit r rest).1, (unlessExit r rest).2) = unlessExit (out ++ r.1, r.2) rest := by
  unfold unlessExit
  split_ifs <;> simp

theorem unlessExit_assoc (r r' rest : List ClientOutput × Option ℕ) :
    unlessExit (unlessExit r r') rest = unlessExit r (unlessExit r' rest) := by
  obtain ⟨out, e⟩ := r
  cases e with
  | some e => rfl
  | none => exact (unlessExit_prepend out r' rest).symm

theorem clientChunk_append_newline (rest : List Byte) :
    clientChunk batchMode bytesWritten line (bytes ++ newline :: rest) =
      unlessExit (clientChunk batchMode bytesWritten line (bytes ++ [newline]))
        (clientChunk batchMode (bytesWritten + (line.length + bytes.length + 1)) [] rest) := by
  induction bytes generalizing line bytesWritten with
  | nil =>
    rw [List.nil_append, List.nil_append, clientChunk, clientChunk, if_pos rfl, if_pos rfl]
    split_ifs <;> simp [unlessExit, clientChunk]
  | cons b bytes ih =>
    have hcount : bytesWritten + (line.length + (b :: bytes).length + 1) =
        bytesWritten + (line.length + 1) + (([] : List Byte).length + bytes.length + 1) := by
      simp only [List.length_cons, List.length_nil]
      omega
    rw [List.cons_append, List.cons_append, clientChunk, clientChunk]
    split_ifs
    · rfl
    · rw [ih, hcount]
    · rw [ih, hcount, ← unlessExit_prepend]
    · rw [ih, hcount, ← unlessExit_prepend]
    · rw [ih, hcount, ← unlessExit_prepend]
    · rw [ih]
      congr 3
      simp only [List.length_append, List.length_cons, List.length_nil]
      omega

theorem clientRead_of_wholeLines (hnul : ∀ chunk ∈ chunks, 0 ∉ chunk)
    (h : ∀ chunk ∈ chunks, ∃ lines, chunk = lines ++ [newline]) :
    clientRead batchMode received chunks =
      unlessExit (clientChunk batchMode received [] chunks.flatten) ([.terminated], none) := by
  induction chunks generalizing received with
  | nil => rfl
  | cons chunk chunks ih =>
    obtain ⟨lines, hlines⟩ := h chunk (by simp)
    have hrest : clientRead batchMode (received + chunk.length) chunks = _ :=
      ih (fun c hc => hnul c (by simp [hc])) fun c hc => h c (by simp [hc])
    -- the counter of the whole stream against that of one read
    have hoffset : clientChunk batchMode received [] chunk =
        ((clientChunk batchMode 0 [] chunk).1, (clientChunk batchMode 0 [] chunk).2.map (received + ·)) :=
      by rw [← clientChunk_add, Nat.add_zero]
    have hwhole : clientChunk batchMode received [] (chunk :: chunks).flatten =
        unlessExit (clientChunk batchMode received [] chunk)
          (clientChunk batchMode (received + chunk.length) [] chunks.flatten) := by
      have happend : clientChunk batchMode received [] (lines ++ newline :: chunks.flatten) = _ :=
        clientChunk_append_newline chunks.flatten
      rw [List.flatten_cons, hlines, List.append_assoc, List.singleton_append, happend]
      simp
    rw [hwhole, unlessExit_assoc, ← hrest, hoffset, clientRead, takeWhile_of_nul_free (hnul chunk (by simp))]
    cases (clientChunk batchMode 0 [] chunk).2 <;> rfl

/-- So two such splits of a stream agree, whatever its lines are. -/
theorem clientRead_wholeLines_agree {chunks' : List (List Byte)} (hnul : 0 ∉ stream)
    (hchunks : Splits stream chunks) (hchunks' : Splits stream chunks')
    (h : ∀ chunk ∈ chunks, ∃ lines, chunk = lines ++ [newline])
    (h' : ∀ chunk ∈ chunks', ∃ lines, chunk = lines ++ [newline]) :
    clientRead batchMode received chunks = clientRead batchMode received chunks' := by
  have hfree : ∀ c : List (List Byte), c.flatten = stream → ∀ chunk ∈ c, 0 ∉ chunk := by
    rintro c rfl chunk hchunk hzero
    exact hnul (List.mem_flatten_of_mem hchunk hzero)
  rw [clientRead_of_wholeLines (hfree chunks hchunks.flatten) h,
    clientRead_of_wholeLines (hfree chunks' hchunks'.flatten) h', hchunks.flatten, hchunks'.flatten]

end BatmanAdv
