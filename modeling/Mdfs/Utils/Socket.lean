import Mathlib.Data.UInt

/-!
# Packets and commands

The packets that `socket_send_packet` and `socket_recv_packet` carry from one program
to another, and what `socket.h` defines: the status of a call, and the commands between
MaRTA, the Job and the nodes.
-/

namespace Mdfs

abbrev Packet := List UInt8

def SOCKET_ERROR_NONE : ℤ := 1
def SOCKET_ERROR_SEND : ℤ := -8
def SOCKET_ERROR_RECV : ℤ := -9

def COMMAND_MARTA_TO_JOB_DIE : UInt8 := 2
def COMMAND_MAP : UInt8 := 10
def COMMAND_REDUCE : UInt8 := 11
def COMMAND_RESULT_OK : UInt8 := 20
def COMMAND_RESULT_FILEUNAVAILABLE : UInt8 := 21
def COMMAND_RESULT_CANT_COPY : UInt8 := 22

end Mdfs
