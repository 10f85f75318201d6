import ElmSuite.Proofs.Header.SourceBlocks

/-!
# Source files and their texts

A file that encodes a text is read as the lines that a file has, which end at `\n`, `\r` and
the two together. A text held in memory has eight more line ends. Where none of those comes
before the end of the header, the file and the text are read alike; elsewhere they need not be.
-/

namespace ElmSuite.Source

open Text (fileLines isLineEnd splitLines)

/-- What the file at a path gives if the lines of its header give `r`. -/
def answerAt (path : Path) (r : Except HeaderFault Exposing) : Except Fault Exposing :=
  r.mapError fun fault => .problem (fault.toProblem (some path))

section Encoded

variable {fs : FileSystem} {path : Path} {text : String} {front : List Char}

/-- A file that encodes a text is read as the lines of a file. -/
theorem exposing_of_encoded (hread : fs.read path = .ok text.toUTF8.toList) :
    exposing fs path = answerAt path (exposingOfLines (fileLines text.toList)) := by
  rw [exposing_eq hread, exposingOfBytes_eq (Utf8.decodeFrom_toUTF8 text), answerAt]
  cases exposingOfLines (fileLines text.toList) <;> rfl

/-- Without other line ends, the lines of a file give what the lines of its text give. -/
theorem exposingOfLines_fileLines
    (hends : ∀ c ∈ front, isLineEnd c = true → c = '\n' ∨ c = '\r') :
    exposingOfLines (fileLines front) = exposingOfLines (splitLines front) := by
  have hlines := Text.splitLinesFrom_upToEmptyLast [] hends
  rw [List.reverse_nil, Text.continueFirst_nil] at hlines
  exact (exposingOfLines_congr hlines).symm

/-- What stands behind the lines that settle the answer matters neither in a file nor in a text. -/
theorem exposingOfLines_append_of_lineFeed
    (hends : ∀ c ∈ front, isLineEnd c = true → c = '\n' ∨ c = '\r')
    (hfeed : front.getLast? = some '\n')
    (hsettled : exposingOfLines (splitLines front) ≠ .error .unfinished) (rest : List Char) :
    exposingOfLines (fileLines (front ++ rest)) = exposingOfLines (splitLines (front ++ rest)) := by
  obtain ⟨lines, hfront, happend⟩ := Text.exists_fileLines_append hfeed
  have hread : exposingOfLines lines = exposingOfLines (splitLines front) := by
    rw [← exposingOfLines_fileLines hends, hfront]
    exact exposingOfLines_congr .empty
  rw [happend, Text.splitLines_append_of_lineFeed hfeed]
  have hopen : exposingOfLines lines ≠ .error .unfinished := hread.symm ▸ hsettled
  calc exposingOfLines (lines ++ fileLines rest)
      = exposingOfLines lines := Scanner.readFrom_append_of_ne rfl hopen _
    _ = exposingOfLines (splitLines front) := hread
    _ = exposingOfLines (splitLines front ++ splitLines rest) :=
        (Scanner.readFrom_append_of_ne rfl hsettled _).symm

end Encoded

/-- **A file is read as its text is, but for where lines end.** A file that encodes a text gives
what the lines of the file give, whatever the text is. It gives what the text gives if the text has
no line ends but those of a file, at least in front of a line feed up to which the answer is
settled. -/
theorem exposing_encoded {fs : FileSystem} {path : Path} {text : String}
    (hread : fs.read path = .ok text.toUTF8.toList) :
    exposing fs path = answerAt path (exposingOfLines (fileLines text.toList)) ∧
    ∀ front rest, text.toList = front ++ rest →
      (∀ c ∈ front, isLineEnd c = true → c = '\n' ∨ c = '\r') →
      (rest = [] ∨ front.getLast? = some '\n' ∧
        exposingOfText (String.ofList front) ≠ .error .unfinished) →
      exposing fs path = answerAt path (exposingOfText text) := by
  refine ⟨exposing_of_encoded hread, fun front rest htext hends hfront => ?_⟩
  rw [exposing_of_encoded hread, exposingOfText, htext]
  refine congrArg (answerAt path) ?_
  rcases hfront with rfl | ⟨hfeed, hsettled⟩
  · rw [List.append_nil]
    exact exposingOfLines_fileLines hends
  · rw [exposingOfText, String.toList_ofList] at hsettled
    exact exposingOfLines_append_of_lineFeed hends hfeed hsettled rest

/-- A tree with one file in the working directory. -/
def oneFile (bytes : List UInt8) : FileSystem := ⟨.dir [("A.elm", .file bytes false)], some []⟩

/-- A form feed behind the header changes nothing. -/
theorem exposing_formFeed_behind :
    exposing (oneFile "module A exposing (t)\r\n\x0cü".toUTF8.toList) ⟨.here, ["A.elm"]⟩ =
      .ok (.only (NameSet.ofList ["t"])) := by
  have hread : (oneFile "module A exposing (t)\r\n\x0cü".toUTF8.toList).read ⟨.here, ["A.elm"]⟩ =
      .ok "module A exposing (t)\r\n\x0cü".toUTF8.toList := by decide +kernel
  have hends : ("module A exposing (t)\r\n".toList.all
      fun c => !isLineEnd c || c == '\n' || c == '\r') = true := by decide +kernel
  rw [(exposing_encoded hread).2 "module A exposing (t)\r\n".toList "\x0cü".toList (by decide +kernel)
    (fun c hc hend => by simpa [hend] using List.all_eq_true.mp hends c hc)
    (.inr ⟨by decide +kernel, by decide +kernel⟩)]
  decide +kernel

/-- A form feed in front of the header ends a line of a text, but is part of the header's line in a
file. -/
theorem exposing_formFeed_before :
    exposingOfText "\x0cmodule A exposing (t)\n" = .ok (.only (NameSet.ofList ["t"])) ∧
    exposing (oneFile "\x0cmodule A exposing (t)\n".toUTF8.toList) ⟨.here, ["A.elm"]⟩ =
      .error (.problem (.missingModuleDeclaration (some ⟨.here, ["A.elm"]⟩))) := by
  decide +kernel

end ElmSuite.Source
