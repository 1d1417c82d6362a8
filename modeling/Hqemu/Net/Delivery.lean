import Hqemu.Net.RecvDelivered
import Hqemu.Net.SendFramed

/-! Both ends of a connection: what is received at one was sent at the other. -/
namespace Hqemu.Net

open List Lib.Run Receive

def carried (tag : Tag) (messages : List (Tag × List Byte)) : List Byte :=
  (messages.filter fun message => message.1 = tag).flatMap (·.2)

theorem carried_framed (tag : Tag) (messages : List Framed) :
    carried tag (messages.map fun message => (message.tag,message.payload)) =
      payloads tag messages := by
  simp [carried,payloads,filter_map,flatMap_map,Function.comp_def]

theorem takeFrames_framed (messages : List Framed) (more : Nat) :
    takeFrames (messages.length+more) (messages.flatMap Framed.frame) =
      messages.map fun message => (message.tag,message.payload) := by
  induction messages with
  | nil => cases more <;> rfl
  | cons message rest ih =>
    have hframe := takeFrame_frame ⟨0,message.tag,[message.payload]⟩
      (by simpa [Msg.payload] using message.fits) (rest.flatMap Framed.frame)
    rw [Msg.frame,Msg.payload,flatten_singleton,← Framed.frame] at hframe
    rw [flatMap_cons,length_cons,Nat.add_right_comm,takeFrames,hframe,map_cons]
    exact congrArg _ ih

variable {config : Config} {sock peer : Sock} {tag : Tag} {socks peers : List Sock}
  {streams : Sock → List Framed} {sends : List Send.Action} {receives : List Action}
  {sender : Send.State} {receiver : State}

/-- The receives hold a beginning of what was sent with the tag, in call order, and all of it when
nothing is left on the way. -/
theorem delivers_sent (hsends : Meets Send.step (Send.Admits sock) (Send.init socks) sends)
    (hsender : run Send.step (Send.init socks) sends = some sender)
    (hreceives : Meets (step config) (Admits config peer tag) (init peers streams) receives)
    (hreceiver : run (step config) (init peers streams) receives = some receiver)
    (hwire : (streams peer).flatMap Framed.frame <+: sender.wire sock) :
    let sent := (Send.sent sock sender.log).map fun msg => (msg.tag, msg.payload)
    filled peer tag receiver <+: carried tag sent ∧ (Send.Idle sock sender →
      sender.wire sock = (streams peer).flatMap Framed.frame → unread peer receiver = [] →
        waiting peer tag receiver.complete = [] →
          filled peer tag receiver = carried tag sent) := by
  have hinv := (always_of_meets (fun _ _ _ h => h.step) (Send.inv_init sock socks)
    hsends).last hsender
  have hs := hinv.framed
  have hr := ((always_of_meets (fun _ _ _ h => h.step) (inv_init peer tag peers streams)
    hreceives).last hreceiver).delivered
  have hpre := takeFrames_pre (fun msg hmsg => hinv.sizes msg (mem_of_mem_filter hmsg))
    ((streams peer).length+0) (hwire.trans hs.wire)
  rw [takeFrames_framed,← Send.sent] at hpre
  dsimp only
  refine ⟨hr.inOrder.trans ?_,fun hidle hall hunread hwaiting => ?_⟩
  · rw [← carried_framed]
    exact (hpre.filter _).flatMap _
  · obtain ⟨more,hmore⟩ := Nat.exists_eq_add_of_le hpre.length_le
    rw [length_map,length_map] at hmore
    rw [← hs.whole,hmore,← hs.idle hidle,hall,takeFrames_framed,carried_framed,
      hr.all hunread hwaiting]

def pairSent : Sock → List Framed := fun _ => [⟨1#32,[5#8,6#8],by decide⟩]

theorem delivers_sent_pair : ∃ receiver, run (step plainConfig) (init [5#32] pairSent)
    (.irecv 5#32 1#32 [[0#8, 0#8]] :: readMessage) = some receiver ∧
      filled 5#32 1#32 receiver = [5#8, 6#8] := by
  have hsends : Meets Send.step (Send.Admits 7#32) (Send.init [7#32]) [.isend 7#32 1#32 [5#8,6#8],
      .sendMessages,.answer (.accepted 12),.answer (.accepted 2)] :=
    meets_cons rfl (by decide : 2 ≤ intMax) (meets_cons rfl trivial (meets_cons rfl trivial
      (meets_cons rfl trivial trivial)))
  suffices h : Meets (step plainConfig) (Admits plainConfig 5#32 1#32) (init [5#32] pairSent)
      (.irecv 5#32 1#32 [[0#8,0#8]] :: readMessage) from
    ⟨_,rfl,(delivers_sent hsends rfl h rfl ⟨[],rfl⟩).2 (by decide) rfl rfl rfl⟩
  refine meets_cons rfl ⟨rfl,by decide,nofun⟩ (meets_cons rfl ⟨rfl,trivial⟩ (meets_cons rfl
    ⟨rfl,by simp⟩ (meets_cons rfl ⟨rfl,?_⟩ (meets_cons rfl ⟨rfl,?_⟩ (meets_cons rfl ⟨rfl,?_⟩
      (meets_cons rfl ⟨rfl,?_⟩ trivial))))))
  iterate 3
    · rintro _ ⟨⟩ -
      decide
  · rintro _ _ ⟨⟩ - ⟨⟩ - -
    exact ⟨by decide,fun h => absurd rfl h⟩

end Hqemu.Net
