import PathQuery.Tool

/-! What a journal holds after a run: an event for each call up to the first that closes it, with call ids in the
order of the starts, and the totals of the run at its end. -/
namespace PathQuery

namespace Journal

inductive Call where
  | start (now : Moment) (g : SelectionGraph) (o : Option QueryOptions)
  | finish (now : Moment) (id : String) (query : Value) (size : Nat) (triples : Value)
  | fail (now : Moment) (id kind message : String)
  | close (now : Moment)

namespace Call

def starts : Call → Bool
  | start .. => true
  | _ => false

def fails : Call → Bool
  | fail .. => true
  | _ => false

def closes : Call → Bool
  | close _ => true
  | _ => false

end Call

def take (j : Journal) : Call → Journal
  | .start now g o => j.beginCall now g o
  | .finish now id query size triples => j.finish now (.text id) query size triples
  | .fail now id kind message => j.fail now (.text id) kind message
  | .close now => j.close now

def live (calls : List Call) : List Call := calls.takeWhile fun call => !call.closes

def Call.notes (before : List Call) : Call → Event
  | .start .. => [("event",.text "compile_start"),("call_id",.text ("c" ++ toString (before.countP starts)))]
  | .finish _ id .. => [("event",.text "compile_end"),("call_id",.text id)]
  | .fail _ id .. => [("event",.text "compile_error"),("call_id",.text id)]
  | .close _ => [("event",.text "session_end"),("compiles",.integer (before.countP starts)),
      ("errors",.integer (before.countP fails))]

def Tells (notes event : Event) : Prop := ∀ field ∈ notes, Value.fieldOf field.1 event = some field.2

variable {j : Journal} {now : Moment} {fields notes event : Event}

@[simp] theorem writeCompiles : (j.write now fields).compiles = j.compiles := by unfold write; split <;> rfl

@[simp] theorem writeErrors : (j.write now fields).errors = j.errors := by unfold write; split <;> rfl

@[simp] theorem writeIsOpen : (j.write now fields).isOpen = j.isOpen := by unfold write; split <;> rfl

theorem writeShut (shut : j.isOpen = false) : j.write now fields = j := by simp [write,shut]

theorem tellsMember (tells : Tells notes event) (name : String) (value : Value) :
    Tells notes (withMember name value event) := by
  have kept : ∀ {fields : Event} {other : String} {v : Value}, Value.fieldOf other fields = some v →
      Value.fieldOf other (fields ++ [(name,value)]) = some v := by
    intro fields other v found
    induction fields with
    | nil => nomatch found
    | cons entry rest ih =>
        rw [List.cons_append,Value.fieldOf]
        rw [Value.fieldOf] at found
        split at found
        · next same => rw [if_pos same,found]
        · next apart => rw [if_neg apart,ih found]
  intro field member
  unfold withMember
  split
  · exact tells field member
  · exact kept (tells field member)

theorem writeTells (opened : j.isOpen = true) (tells : Tells notes fields) :
    ∃ event, (j.write now fields).events = j.events ++ [event] ∧ Tells notes event :=
  ⟨_,by rw [write,if_pos opened],tellsMember (tellsMember tells _ _) _ _⟩

structure Counts (before : List Call) (j : Journal) : Prop where
  opened : j.isOpen = true
  compiles : j.compiles = before.countP Call.starts
  errors : j.errors = before.countP Call.fails

variable {before : List Call}

theorem takeTells (counts : Counts before j) (call : Call) :
    ∃ event, (j.take call).events = j.events ++ [event] ∧ Tells (call.notes before) event := by
  cases call with
  | start now g o =>
      refine writeTells counts.opened ?_
      simp [Tells,Call.notes,Value.fieldOf,callId,counts.compiles]
  | finish now id query size triples =>
      exact writeTells counts.opened (by simp [Tells,Call.notes,Value.fieldOf])
  | fail now id kind message =>
      exact writeTells counts.opened (by simp [Tells,Call.notes,Value.fieldOf])
  | close now =>
      refine writeTells counts.opened ?_
      simp [Tells,Call.notes,Value.fieldOf,counts.compiles,counts.errors]

theorem takeCounts (counts : Counts before j) (call : Call) (goes : call.closes = false) :
    Counts (before ++ [call]) (j.take call) := by
  cases call with
  | start now g o =>
      exact ⟨by simp [take,beginCall,counts.opened],by simp [take,beginCall,counts.compiles,Call.starts],
        by simp [take,beginCall,counts.errors,Call.fails]⟩
  | finish now id query size triples =>
      exact ⟨by simp [take,finish,forget,counts.opened],by simp [take,finish,forget,counts.compiles,Call.starts],
        by simp [take,finish,forget,counts.errors,Call.fails]⟩
  | fail now id kind message =>
      exact ⟨by simp [take,fail,forget,counts.opened],by simp [take,fail,forget,counts.compiles,Call.starts],
        by simp [take,fail,forget,counts.errors,Call.fails]⟩
  | close now => nomatch goes

theorem takeShut (shut : j.isOpen = false) (call : Call) :
    (j.take call).isOpen = false ∧ (j.take call).events = j.events := by
  cases call <;> simp [take,beginCall,finish,fail,close,forget,writeShut,shut]

theorem runShut {α : Type} {step : Journal → α → Journal}
    (still : ∀ {j : Journal}, j.isOpen = false → ∀ a, (step j a).isOpen = false ∧ (step j a).events = j.events)
    (shut : j.isOpen = false) (items : List α) : (items.foldl step j).events = j.events := by
  induction items generalizing j with
  | nil => rfl
  | cons item rest ih =>
      obtain ⟨closed,same⟩ := still shut item
      rw [List.foldl_cons,ih closed,same]

structure Accounts (before calls : List Call) (told closing : List Event) : Prop where
  each : told.length = (live calls).length
  tells : ∀ (i : Nat) (call : Call), (live calls)[i]? = some call →
    ∃ event, told[i]? = some event ∧ Tells (call.notes (before ++ (live calls).take i)) event
  ended : closing.length = if calls.any Call.closes then 1 else 0
  totals : ∀ event ∈ closing, Tells
    [("event",.text "session_end"),("compiles",.integer ((before ++ live calls).countP Call.starts)),
      ("errors",.integer ((before ++ live calls).countP Call.fails))] event

theorem runAccounts (counts : Counts before j) (calls : List Call) : ∃ told closing,
    (calls.foldl take j).events = j.events ++ (told ++ closing) ∧ Accounts before calls told closing := by
  induction calls generalizing before j with
  | nil => exact ⟨[],[],by simp,rfl,nofun,rfl,List.forall_mem_nil _⟩
  | cons call rest ih =>
      obtain ⟨event,written,tells⟩ := takeTells counts call
      rw [List.foldl_cons]
      cases closes : call.closes with
      | true =>
          obtain ⟨now,rfl⟩ : ∃ now, call = .close now := by
            cases call <;> first | exact ⟨_,rfl⟩ | nomatch closes
          have still : ((Call.close now :: rest).foldl take j).events = j.events ++ [event] := by
            rw [List.foldl_cons,runShut takeShut rfl,written]
          refine ⟨[],[event],still,rfl,nofun,rfl,?_⟩
          simpa [live,Call.closes,Call.notes] using tells
      | false =>
          obtain ⟨told,closing,more,accounts⟩ := ih (takeCounts counts call closes)
          have later : live (call :: rest) = call :: live rest := by simp [live,closes]
          refine ⟨event :: told,closing,by simp [more,written],?_,?_,?_,?_⟩
          · simp [later,accounts.each]
          · rw [later]
            rintro (_ | i) other found
            · cases Option.some.inj found
              exact ⟨event,rfl,by simpa using tells⟩
            · obtain ⟨own,there,told⟩ := accounts.tells i other found
              exact ⟨own,there,by simpa using told⟩
          · simp [closes,accounts.ended]
          · simpa [later] using accounts.totals

end Journal

structure ToolCall where
  tool : CompileTool
  selection : Value ⊕ SelectionGraph
  limit : Value
  began : Moment
  ended : Moment

def ToolCall.request (c : ToolCall) : Except Fault Request :=
  match c.selection with
  | .inl value => c.tool.request value c.limit
  | .inr g => c.tool.requestFor g c.limit

namespace Journal

inductive Use where
  | call (c : ToolCall)
  | close (now : Moment)

def Use.closes : Use → Bool
  | call _ => false
  | close _ => true

def Use.compiles : Use → Bool
  | call c => c.request.isOk
  | close _ => false

def use (check : Check) (j : Journal) : Use → Journal
  | .call c => match c.request with
    | .ok request => request.note j c.began c.ended (request.run check)
    | .error _ => j
  | .close now => j.close now

structure Paired (number : Nat) (pair : Event × Event) : Prop where
  starts : Tells [("event",.text "compile_start"),("call_id",.text ("c" ++ toString number))] pair.1
  ends : ∃ kind ∈ ["compile_end","compile_error"],
    Tells [("event",.text kind),("call_id",.text ("c" ++ toString number))] pair.2

variable {j : Journal} {before : List Call}

def ending (id : String) (now : Moment) : Except Fault (List Char) → Call
  | .ok text => .finish now id (.text (String.ofList text)) text.length (.integer (Query.tripleLineCount text))
  | .error fault => .fail now id fault.label (fault.message.getD "")

theorem noteTakes (request : Request) (j : Journal) (began ended : Moment) (result : Except Fault (List Char)) :
    request.note j began ended result =
      (j.take (.start began request.selection (some request.options))).take (ending j.callId ended result) := by
  cases result <;> rfl

theorem notePaired (counts : Counts before j) (request : Request) (began ended : Moment)
    (result : Except Fault (List Char)) : ∃ (calls : List Call) (pair : Event × Event),
    Counts (before ++ calls) (request.note j began ended result) ∧ calls.countP Call.starts = 1 ∧
      (request.note j began ended result).events = j.events ++ [pair.1,pair.2] ∧
      Paired (before.countP Call.starts) pair := by
  have number : j.callId = "c" ++ toString (before.countP Call.starts) := by rw [callId,counts.compiles]
  obtain ⟨first,opened,starts⟩ := takeTells counts (.start began request.selection (some request.options))
  have begun := takeCounts counts (.start began request.selection (some request.options)) rfl
  obtain ⟨second,closed,ends⟩ := takeTells begun (ending j.callId ended result)
  have done := takeCounts begun (ending j.callId ended result) (by cases result <;> rfl)
  rw [noteTakes]
  refine ⟨[_,_],(first,second),List.append_assoc _ [_] [_] ▸ done,?_,?_,starts,?_⟩
  · cases result <;> rfl
  · rw [closed,opened,List.append_assoc,List.singleton_append]
  · rw [number] at ends
    cases result with
    | ok text => exact ⟨_,by simp,ends⟩
    | error fault => exact ⟨_,by simp,ends⟩

theorem useShut (check : Check) (shut : j.isOpen = false) (use : Use) :
    (j.use check use).isOpen = false ∧ (j.use check use).events = j.events := by
  cases use with
  | call c =>
      rw [Journal.use]
      split
      · rw [noteTakes]
        obtain ⟨begun,same⟩ := takeShut shut (.start c.began _ (some _))
        obtain ⟨done,still⟩ := takeShut begun (ending j.callId c.ended _)
        exact ⟨done,still.trans same⟩
      · exact ⟨shut,rfl⟩
  | close now => exact takeShut shut (.close now)

theorem usePairs (check : Check) (counts : Counts before j) (uses : List Use) :
    ∃ (pairs : List (Event × Event)) (closing : List Event),
    (uses.foldl (use check) j).events = j.events ++ (pairs.flatMap (fun pair => [pair.1,pair.2]) ++ closing) ∧
      (∀ i pair, pairs[i]? = some pair → Paired (before.countP Call.starts + i) pair) ∧
      pairs.length = (uses.takeWhile fun use => !use.closes).countP Use.compiles ∧
      closing.length = (if uses.any Use.closes then 1 else 0) ∧
      ∀ event ∈ closing, Tells [("event",.text "session_end")] event := by
  induction uses generalizing before j with
  | nil => exact ⟨[],[],by simp,nofun,rfl,rfl,List.forall_mem_nil _⟩
  | cons use rest ih =>
      rw [List.foldl_cons]
      cases use with
      | close now =>
          obtain ⟨event,written,tells⟩ := takeTells counts (.close now)
          refine ⟨[],[event],(runShut (useShut check) rfl rest).trans written,nofun,rfl,rfl,?_⟩
          simpa [Tells,Call.notes] using (List.forall_mem_cons.mp tells).1
      | call c =>
          rw [Journal.use]
          split
          · next request made =>
            obtain ⟨calls,pair,counted,one,written,paired⟩ := notePaired counts request c.began c.ended (request.run check)
            obtain ⟨pairs,closing,more,each,number,ended,last⟩ := ih counted
            refine ⟨pair :: pairs,closing,by simp [more,written],?_,?_,ended,last⟩
            · rintro (_ | i) other found
              · cases Option.some.inj found
                exact paired
              · rw [Nat.add_comm i 1,← Nat.add_assoc,← one,← List.countP_append]
                exact each i other found
            · simp [Use.closes,Use.compiles,made,Except.isOk,Except.toBool,number]
          · next fault failed =>
            obtain ⟨pairs,closing,more,each,number,ended,last⟩ := ih counts
            refine ⟨pairs,closing,more,each,?_,ended,last⟩
            simp [Use.closes,Use.compiles,failed,Except.isOk,Except.toBool,number]

theorem startCounts (runId : String) (now : Moment) (past : List Event) : Counts [] (start runId now past) :=
  ⟨by simp [start],by simp [start],by simp [start]⟩

theorem startTells (runId : String) (now : Moment) (past : List Event) : ∃ opening,
    (start runId now past).events = past ++ [opening] ∧ Tells [("event",.text "session_start")] opening :=
  writeTells rfl (by simp [Tells,Value.fieldOf])

/-- A journal opens with the start of its run and has one event for each call before the first that closes it, the
starts with numbered ids; the last event holds the totals. Where only tools write, each start stands before the one
end of the same call. -/
theorem journalAccounts (runId : String) (now : Moment) (past : List Event) :
    (∀ calls : List Call, ∃ opening told closing,
      (calls.foldl take (start runId now past)).events = past ++ opening :: (told ++ closing) ∧
        Tells [("event",.text "session_start")] opening ∧ Accounts [] calls told closing) ∧
    ∀ (check : Check) (uses : List Use), ∃ (opening : Event) (pairs : List (Event × Event)) (closing : List Event),
      (uses.foldl (use check) (start runId now past)).events =
        past ++ opening :: (pairs.flatMap (fun pair => [pair.1,pair.2]) ++ closing) ∧
        Tells [("event",.text "session_start")] opening ∧
        (∀ i pair, pairs[i]? = some pair → Paired i pair) ∧
        pairs.length = (uses.takeWhile fun use => !use.closes).countP Use.compiles ∧
        closing.length = (if uses.any Use.closes then 1 else 0) ∧
        ∀ event ∈ closing, Tells [("event",.text "session_end")] event := by
  obtain ⟨opening,written,tells⟩ := startTells runId now past
  have counts := startCounts runId now past
  constructor
  · intro calls
    obtain ⟨told,closing,more,accounts⟩ := runAccounts counts calls
    exact ⟨opening,told,closing,by simp [more,written],tells,accounts⟩
  · intro check uses
    obtain ⟨pairs,closing,more,each,number,ended,last⟩ := usePairs check counts uses
    refine ⟨opening,pairs,closing,by simp [more,written],tells,fun i pair found => ?_,number,ended,last⟩
    simpa using each i pair found

end Journal

end PathQuery
