import Aesd.Server.FileEcho

/-! The file build with writes that may take any part of their data: the file is its initial
content followed by whole records exactly as long as no write takes a part of its record. -/
namespace Aesd.Server
open Driver (Byte)
open Records Runs

def Event.torn : Event → Bool
  | .write _ data (some n) => 0 < n && n < data.length
  | _ => false

def Event.completed : Event → Option (List Byte)
  | .write _ data (some n) => if n = data.length then some data else none
  | _ => none

def Label.event {χ : Type} : Label χ → Option Event
  | .thread _ e _ => some e
  | _ => none

def Label.torn {χ : Type} (l : Label χ) : Bool := l.event.any Event.torn

def completedRecords {χ : Type} (tr : List (Label χ)) : List (List Byte) :=
  tr.filterMap fun l => l.event.bind Event.completed

def appendedBytes {χ : Type} (tr : List (Label χ)) : List Byte :=
  (tr.map fun l => (l.event.map Event.appended).getD []).flatten

/-- The file is its initial content and then whole records, those that were appended whole. -/
def Intact {χ : Type} (content file : List Byte) (tr : List (Label χ)) : Prop :=
  file = content ++ (completedRecords tr).flatten ∧
    ∀ r ∈ completedRecords tr, IsRecord packetEnding r

theorem byte_ne_ending {c : Char} (h : c.toNat < 256) (hc : c.toNat ≠ 10) :
    c.toNat.toUInt8 ≠ packetEnding := by
  intro heq
  have hnat := congrArg UInt8.toNat heq
  rw [show c.toNat.toUInt8.toNat = c.toNat % 256 from rfl,
    show packetEnding.toNat = 10 from rfl] at hnat
  omega

theorem isDigit_toNat {c : Char} (h : c.isDigit = true) : 48 ≤ c.toNat ∧ c.toNat ≤ 57 := by
  unfold Char.isDigit at h
  rw [Bool.and_eq_true, decide_eq_true_iff, decide_eq_true_iff] at h
  exact h

theorem decimal_isDigit {n : ℕ} {c : Char} (h : c ∈ decimal n) : c.isDigit = true :=
  Nat.isDigit_of_mem_toDigits (b := 10) (by decide) (by decide) h

theorem twoDigits_isDigit {n : ℕ} {c : Char} (h : c ∈ twoDigits n) : c.isDigit = true := by
  unfold twoDigits at h
  split at h
  · rcases List.mem_append.mp h with h | h
    · rw [List.mem_singleton.mp h]
      decide
    · exact decimal_isDigit h
  · exact decimal_isDigit h

theorem timeText_toNat (tm : Tm) {c : Char} (hc : c ∈ timeText tm) :
    c.toNat < 256 ∧ c.toNat ≠ 10 := by
  have hdigit (h : c.isDigit = true) : c.toNat < 256 ∧ c.toNat ≠ 10 := by
    obtain ⟨hlow, hup⟩ := isDigit_toNat h
    omega
  have hletter (l : List Char) (hl : l.all (fun c => c.toNat < 256 && c.toNat ≠ 10) = true)
      (h : c ∈ l) : c.toNat < 256 ∧ c.toNat ≠ 10 := by
    simpa using List.all_eq_true.mp hl c h
  unfold timeText at hc
  simp only [List.mem_append, or_assoc] at hc
  rcases hc with h | h | h | h | h | h | h | h | h | h | h | h
  all_goals first
    | exact hdigit (decimal_isDigit h)
    | exact hdigit (twoDigits_isDigit h)
    | exact hletter _ (by decide) h

theorem timeStamp_isRecord (tm : Tm) : IsRecord packetEnding (timeStamp tm) := by
  refine ⟨_, ?_, rfl⟩
  intro hmem
  obtain ⟨c, hc, hbyte⟩ := List.mem_map.mp hmem
  obtain ⟨hlt, hne⟩ := timeText_toNat tm hc
  exact byte_ne_ending hlt hne hbyte

section
variable {s s' : System (List Byte)} {h : History} {t : Tid} {choice : Unit} {l : Label Unit}
  {tr : List (Label Unit)} {content : List Byte} {reserved : Fd → Bool}

/-- Whatever is handed to `write` is one whole line. -/
theorem write_isRecord {fd : Fd} {data : List Byte} {written : Option ℕ}
    (hl : Logged fileBuild s h) (hstamped : s.main.Stamped)
    (hs : s.step regularFile fileBuild (.thread t (.write fd data written) choice) = some s') :
    IsRecord packetEnding data := by
  cases t with
  | main =>
    obtain ⟨-, main, -, -, hnext, -⟩ := System.step_main hs
    obtain ⟨tm, rfl⟩ := hnext.write_text hstamped
    exact timeStamp_isRecord tm
  | worker i =>
    obtain ⟨-, w, w', -, hw, hstep, -⟩ := System.step_worker hs
    obtain ⟨c, hc, -⟩ := hl.owned.client i w hw
    obtain ⟨addr, clientFd, hrun⟩ := hl.runs i w c hw hc
    obtain ⟨hpc, rfl, -⟩ := (Worker.step_next hstep).write
    exact ((run_framed hrun).ready (by simp only [Worker.phase, hpc]; rfl)).1

theorem step_node (hs : s.Step regularFile fileBuild l s') :
    s'.kernel.node = s.kernel.node ++ appendedBytes [l] := by
  obtain ⟨-, hs⟩ := hs
  cases l with
  | thread t e choice =>
    rw [call_node (System.thread_step hs).2.1]
    simp [appendedBytes, Label.event]
  | signal sig =>
    obtain ⟨-, -, rfl⟩ := System.step_signal hs
    rw [(deliver_fds s.kernel sig).2.2.2.2]
    exact (List.append_nil _).symm
  | disconnect c =>
    obtain ⟨-, -, rfl⟩ := System.step_disconnect hs
    exact (List.append_nil _).symm

theorem stamped_step (hstamped : s.main.Stamped) (hs : s.Step regularFile fileBuild l s') :
    s'.main.Stamped := by
  obtain ⟨-, hs⟩ := hs
  cases l with
  | thread t e choice => exact hstamped.step hs
  | signal sig =>
    obtain ⟨-, -, rfl⟩ := System.step_signal hs
    exact hstamped
  | disconnect c =>
    obtain ⟨-, -, rfl⟩ := System.step_disconnect hs
    exact hstamped

theorem appendedBytes_append {χ : Type} (tr₁ tr₂ : List (Label χ)) :
    appendedBytes (tr₁ ++ tr₂) = appendedBytes tr₁ ++ appendedBytes tr₂ := by
  simp [appendedBytes]

theorem completedRecords_append {χ : Type} (tr₁ tr₂ : List (Label χ)) :
    completedRecords (tr₁ ++ tr₂) = completedRecords tr₁ ++ completedRecords tr₂ :=
  List.filterMap_append ..

theorem completed_write {χ : Type} {l : Label χ} {r : List Byte} (hr : r ∈ completedRecords [l]) :
    ∃ fd data n t choice, l = .thread t (.write fd data (some n)) choice ∧ r = data := by
  obtain ⟨l', hl', hcompleted⟩ := List.mem_filterMap.mp hr
  obtain rfl := List.mem_singleton.mp hl'
  obtain ⟨e, he, hcompleted⟩ := Option.bind_eq_some_iff.mp hcompleted
  cases l' with
  | thread t e' choice =>
    obtain rfl := Option.some.inj he
    cases e' with
    | write fd data written =>
      cases written with
      | none => cases hcompleted
      | some n =>
        simp only [Event.completed] at hcompleted
        split at hcompleted <;> cases hcompleted
        exact ⟨fd, _, n, t, choice, rfl, rfl⟩
    | _ => cases hcompleted
  | signal sig => cases he
  | disconnect c => cases he

/-- In every run the file is what the writes appended, and each of them was handed one line. -/
theorem run_appended (hrun : Run (System.Step regularFile fileBuild)
    (System.start content reserved) tr s) :
    s.kernel.node = content ++ appendedBytes tr ∧ s.main.Stamped ∧
      ∀ r ∈ completedRecords tr, IsRecord packetEnding r := by
  induction hrun with
  | nil =>
    refine ⟨(List.append_nil _).symm, ?_, by simp [completedRecords]⟩
    intro pc text hpc
    cases hpc
  | @snoc tr s l s' hrun hs ih =>
    obtain ⟨hnode, hstamped, hrecords⟩ := ih
    refine ⟨?_, stamped_step hstamped hs, ?_⟩
    · rw [step_node hs, hnode, appendedBytes_append, List.append_assoc]
    · intro r hr
      rw [completedRecords_append] at hr
      rcases List.mem_append.mp hr with hr | hr
      · exact hrecords r hr
      · obtain ⟨fd, data, n, t, choice, rfl, rfl⟩ := completed_write hr
        exact write_isRecord (run_logged hrun) hstamped hs.2

/-- A call appends what it completes, or it is torn: then it completes nothing and appends more. -/
theorem Event.appended_or_torn {e : Event} (he : e.Posix) :
    (e.torn = false ∧ e.appended = e.completed.getD []) ∨
      (e.torn = true ∧ e.completed = none ∧ e.appended ≠ []) := by
  cases e with
  | write fd data written =>
    cases written with
    | none => exact .inl ⟨rfl, rfl⟩
    | some n =>
      have hle : n ≤ data.length := he
      rcases hle.lt_or_eq with hlt | rfl
      · rcases Nat.eq_zero_or_pos n with rfl | hpos
        · refine .inl ⟨rfl, ?_⟩
          simp [appended, completed, hlt.ne]
        · refine .inr ⟨by simp [torn, hpos, hlt], by simp [completed, hlt.ne], fun hnil => ?_⟩
          have hlen := congrArg List.length hnil
          simp only [appended, List.length_take, List.length_nil] at hlen
          omega
      · exact .inl ⟨by simp [torn], by simp [appended, completed]⟩
  | _ => exact .inl ⟨rfl, rfl⟩

theorem Label.appended_or_torn (hl : l.Posix) :
    (l.torn = false ∧ appendedBytes [l] = (completedRecords [l]).flatten) ∨
      (l.torn = true ∧ completedRecords [l] = [] ∧ appendedBytes [l] ≠ []) := by
  cases l with
  | thread t e choice =>
    have he : e.Posix := hl
    rcases Event.appended_or_torn he with ⟨htorn, happended⟩ | ⟨htorn, hnone, happended⟩
    · refine .inl ⟨htorn, ?_⟩
      cases hc : e.completed <;>
        simp_all [appendedBytes, completedRecords, Label.event]
    · refine .inr ⟨htorn, ?_, ?_⟩
      · simp [completedRecords, Label.event, hnone]
      · simpa [appendedBytes, Label.event] using happended
  | signal sig => exact .inl ⟨rfl, rfl⟩
  | disconnect c => exact .inl ⟨rfl, rfl⟩

theorem appended_or_torn (hposix : ∀ l ∈ tr, l.Posix) :
    ((∀ l ∈ tr, l.torn = false) ∧ appendedBytes tr = (completedRecords tr).flatten) ∨
      ((∃ l ∈ tr, l.torn = true) ∧
        (completedRecords tr).flatten.length < (appendedBytes tr).length) := by
  induction tr with
  | nil => exact .inl ⟨by simp, rfl⟩
  | cons l tr ih =>
    have hsplit : l :: tr = [l] ++ tr := rfl
    rw [hsplit, appendedBytes_append, completedRecords_append, List.flatten_append]
    have hhead := Label.appended_or_torn (hposix l List.mem_cons_self)
    have htail := ih fun l' hl' => hposix l' (List.mem_cons_of_mem _ hl')
    rcases hhead with ⟨hl, heq⟩ | ⟨hl, hnone, hmore⟩
    · rw [heq]
      rcases htail with ⟨hall, htail⟩ | ⟨⟨l', hl', htorn⟩, htail⟩
      · refine .inl ⟨?_, by rw [htail]⟩
        intro l' hl'
        rcases List.mem_append.mp hl' with hl' | hl'
        · exact List.mem_singleton.mp hl' ▸ hl
        · exact hall l' hl'
      · refine .inr ⟨⟨l', List.mem_append_right _ hl', htorn⟩, ?_⟩
        rw [List.length_append, List.length_append]
        omega
    · refine .inr ⟨⟨l, List.mem_cons_self, hl⟩, ?_⟩
      have hpos : 0 < (appendedBytes [l]).length := List.length_pos_iff.mpr hmore
      have hle : (completedRecords tr).flatten.length ≤ (appendedBytes tr).length := by
        rcases htail with ⟨-, htail⟩ | ⟨-, htail⟩
        · rw [htail]
        · exact htail.le
      rw [hnone, List.flatten_nil, List.nil_append, List.length_append]
      omega

theorem run_posix (hrun : Run (System.Step regularFile fileBuild)
    (System.start content reserved) tr s) : ∀ l ∈ tr, l.Posix := by
  refine (hrun.forall_label (I := fun _ => True) trivial ?_).2
  intro s l s' _ hs
  refine ⟨trivial, ?_⟩
  cases l with
  | thread t e choice => exact hs.1.1
  | signal sig => trivial
  | disconnect c => trivial

/-- For every schedule of the file build, whatever its writes take: the file is its initial
content and then the records that were appended whole, each one line, exactly when no write has
appended a part of its record. -/
theorem file_intact_iff (content : List Byte) (reserved : Fd → Bool) {tr : List (Label Unit)}
    {s : System (List Byte)}
    (hrun : Run (System.Step regularFile fileBuild) (System.start content reserved) tr s) :
    Intact content s.kernel.node tr ↔ ∀ l ∈ tr, l.torn = false := by
  obtain ⟨hnode, -, hrecords⟩ := run_appended hrun
  rcases appended_or_torn (run_posix hrun) with ⟨hall, heq⟩ | ⟨⟨l, hl, htorn⟩, hlt⟩
  · exact ⟨fun _ => hall, fun _ => ⟨by rw [hnode, heq], hrecords⟩⟩
  · constructor
    · rintro ⟨hfile, -⟩
      have happended := List.append_cancel_left (hnode.symm.trans hfile)
      rw [happended] at hlt
      exact absurd hlt (lt_irrefl _)
    · intro hall
      exact absurd (htorn.symm.trans (hall l hl)) (by decide)

end

theorem twoEchoes_intact : ∃ s, Run (System.Step regularFile fileBuild)
    (System.start [] fun _ => false) twoEchoes s ∧ Intact [] s.kernel.node twoEchoes := by
  have hruns : (twoEchoes.foldlM (System.step regularFile fileBuild)
      (System.start [] fun _ => false)).isSome := by decide +kernel
  obtain ⟨s, hs⟩ := Option.isSome_iff_exists.mp hruns
  have hrun := run_of_foldlM (by decide +kernel) hs
  exact ⟨s, hrun, (file_intact_iff [] (fun _ => false) hrun).mpr (by decide +kernel)⟩

/-- The client's packet `"a\n"`, of which the `write` takes the first byte. -/
def tornEcho : List (Label Unit) :=
  oneEcho.take 23 ++ [.write 5 [97, 10] (some 1), .close 5 true, .mutexUnlock true,
    .returns (-1)].map fun e => .thread (.worker 0) e ()

/-- The mutex is free again and the file is no concatenation of lines. -/
theorem tornEcho_leaves_fragment : ∃ s, Run (System.Step regularFile fileBuild)
    (System.start [] fun _ => false) tornEcho s ∧ s.kernel.mutex = none ∧
      ∀ lines : List (List Byte), (∀ r ∈ lines, IsRecord packetEnding r) →
        s.kernel.node ≠ [] ++ lines.flatten := by
  have hend : (tornEcho.foldlM (System.step regularFile fileBuild)
      (System.start [] fun _ => false)).map (fun s => (s.kernel.mutex, s.kernel.node)) =
        some (none, [97]) := by decide +kernel
  obtain ⟨s, hs, hpair⟩ := Option.map_eq_some_iff.mp hend
  obtain ⟨hmutex, hnode⟩ := Prod.mk.inj hpair
  refine ⟨s, run_of_foldlM (by decide +kernel) hs, hmutex, fun lines hlines hfile => ?_⟩
  have hread := records_flatten_append hlines []
  rw [List.append_nil, ← List.nil_append lines.flatten, ← hfile, hnode] at hread
  have hnone : lines = [] := by simpa using (List.append_eq_nil_iff.mp hread.symm).1
  simp [hnone, hnode] at hfile

end Aesd.Server
