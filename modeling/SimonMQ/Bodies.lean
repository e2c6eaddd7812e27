import SimonMQ.Dist.Command
import SimonMQ.Durable.Model

namespace SimonMQ

open SimonMQ.Go SimonMQ.Dist SimonMQ.Durable

/-! Message bodies on their way through both logs. -/

theorem toValid_eq_self_iff (bytes : Bytes) :
    Utf8.toValid bytes = bytes ↔ Utf8.Valid bytes := by
  constructor
  · intro hsame
    rw [← hsame]
    exact Utf8.valid_toValid bytes
  · exact Utf8.flatten_runes_of_valid

/-- A replica's command and a restarted broker's record carry the body that was sent if
and only if it is valid UTF-8. -/
theorem bodies_survive_iff_utf8 {queueName msgId body : GoString} {subList : GoMap SubPolicy}
    {data : Bytes}
    (hencode : (Command.newEnqueue queueName msgId body subList).encode = .ok data) :
    (∃ cmd, Command.decode data = .ok cmd ∧
      (cmd.payload = body ↔ Utf8.Valid body)) ∧
    ∃ enq, decodeEnqueue (encodeEnqueue ⟨msgId, body, subList⟩) = some enq ∧
      (enq.msgContent = body ↔ Utf8.Valid body) :=
  ⟨⟨_, Command.decode_encode hencode, toValid_eq_self_iff body⟩,
    _, decodeEnqueue_encodeEnqueue _, toValid_eq_self_iff body⟩

/-- A body with an escape, a line break and a character of three bytes. -/
theorem greeting_survives :
    ∃ data,
      (Command.newEnqueue (lit "q") (lit "m") (lit "\"a\\\n日\"") ∅).encode = .ok data ∧
      (∃ cmd, Command.decode data = .ok cmd ∧
        (cmd.payload = lit "\"a\\\n日\"" ↔ Utf8.Valid (lit "\"a\\\n日\""))) ∧
      ∃ enq, decodeEnqueue (encodeEnqueue ⟨lit "m", lit "\"a\\\n日\"", ∅⟩) = some enq ∧
        (enq.msgContent = lit "\"a\\\n日\"" ↔ Utf8.Valid (lit "\"a\\\n日\"")) := by
  obtain ⟨data, hencode⟩ : ∃ data,
      (Command.newEnqueue (lit "q") (lit "m") (lit "\"a\\\n日\"") ∅).encode = .ok data :=
    ⟨_, rfl⟩
  exact ⟨data, hencode, bodies_survive_iff_utf8 hencode⟩

/-- A single byte that is no text comes back as the replacement character. -/
theorem lone_byte_is_replaced :
    (∃ data cmd, (Command.newEnqueue (lit "q") (lit "m") [0xff] ∅).encode = .ok data ∧
      Command.decode data = .ok cmd ∧ cmd.payload = [0xef, 0xbf, 0xbd]) ∧
    ∃ enq, decodeEnqueue (encodeEnqueue ⟨lit "m", [0xff], ∅⟩) = some enq ∧
      enq.msgContent = [0xef, 0xbf, 0xbd] := by
  have hreplaced : Utf8.toValid [0xff] = [0xef, 0xbf, 0xbd] := by
    decide +kernel
  obtain ⟨data, hencode⟩ : ∃ data,
      (Command.newEnqueue (lit "q") (lit "m") [0xff] ∅).encode = .ok data :=
    ⟨_, rfl⟩
  exact ⟨⟨data, _, hencode, Command.decode_encode hencode, hreplaced⟩,
    _, decodeEnqueue_encodeEnqueue _, hreplaced⟩

end SimonMQ
